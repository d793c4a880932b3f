import ScriptAnalyzer.Token.Layout
import ScriptAnalyzer.Syntax.Tree
import ScriptAnalyzer.Project.SourceKind

/-!
The state of the parser and its elementary steps.

A construct remembers the column that its further lines have to exceed, the *offside* column. A token
that starts a line at or left of that column ends the construct, but tokens that can only continue
one (`then`, `else`, infix operators) may stand on the column itself, and so may the first token of a
statement, the *anchor*. The tokens still to be read form a suffix of the tokens of the file, so a
place in the file is told by the number of tokens behind it.
-/

namespace ScriptAnalyzer

structure ParserState where
  rest : List LaidToken
  /-- The size of the text, where the end of the file stands. -/
  size : Nat
  prevEnd : Nat := 0
  offside : Nat := 0
  /-- The number of tokens that were left at the start of the current statement. -/
  anchor : Option Nat := none
  nesting : Nat := 0
  kind : SourceKind
  errors : List SyntaxError

/-- A parser reads tokens, records errors and always returns a result. -/
abbrev Parser := StateM ParserState

namespace ParserState

/-- The next token; behind the last one it is the end of the file. -/
def current (s : ParserState) : LaidToken := s.rest.headD (.endOf s.size)

def peek (s : ParserState) : Token := s.current.token

/-- The token `n` places behind the next one. -/
def ahead (s : ParserState) (n : Nat) : Token := (s.rest.drop n).head?.elim .eof (·.token)

def atEnd (s : ParserState) : Bool := s.rest.isEmpty

/-- The next token starts a line left of `column`, or the file ends. -/
def beforeColumn (s : ParserState) (column : Nat) : Bool :=
  s.atEnd || (s.current.lineStart && s.current.column < column)

/-- Tokens that may stand on the offside column. -/
def isContinuation : Token → Bool
  | .keyword .thenKw | .keyword .elseKw => true
  | .operator o => o != .arrow && o != .minus && o != .bar
  | _ => false

/-- The next token ends the construct that is being read. -/
def isOffside (s : ParserState) : Bool :=
  if s.atEnd then true
  else if !s.current.lineStart || s.anchor == some s.rest.length then false
  else if isContinuation s.peek then s.current.column < s.offside
  else s.current.column ≤ s.offside

def advance (s : ParserState) : ParserState :=
  match s.rest with
  | [] => s
  | t :: ts => { s with rest := ts, prevEnd := t.span.stop }

/-- Records an error, unless an error already starts at the same place. -/
def report (s : ParserState) (e : SyntaxError) : ParserState :=
  if s.errors.any fun e' => e'.span.start == e.span.start then s
  else { s with errors := s.errors ++ [e] }

end ParserState

namespace Parser

def bump : Parser LaidToken := modifyGet fun s => (s.current, s.advance)

/-- Reads the next token if it is `token`. -/
def eat (token : Token) : Parser (Option Span) := do
  if (← get).peek = token then
    let t ← bump
    return some t.span
  else return none

/-- Skips tokens as long as `p` holds of the next one. -/
def skipWhile (p : LaidToken → Bool) : Parser Unit := modify fun s =>
  let skipped := s.rest.takeWhile p
  { s with
    rest := s.rest.dropWhile p
    prevEnd := (skipped.getLast?.map (·.span.stop)).getD s.prevEnd }

def report (e : SyntaxError) : Parser Unit := modify (·.report e)

def error (cause : SyntaxError.Cause) (span : Span) : Parser Unit := report { cause, span }

/-- Reports the next token, or the end of the file, as unexpected. -/
def unexpected : Parser Unit := do
  let s ← get
  if s.atEnd then error .unexpectedEnd (.empty s.prevEnd)
  else error (.unexpectedToken s.peek.text) s.current.span

def missing (what : String) : Parser Unit := do
  let s ← get
  let span := if s.atEnd || s.current.lineStart then .empty s.prevEnd else s.current.span
  error (.expected what) span

def when (condition : Bool) (p : Parser Unit) : Parser Unit := if condition then p else return ()

def skip : Parser Unit := modify (·.advance)

/-- Reports the next token as unexpected and reads it. -/
def reject : Parser Unit := do
  unexpected
  skip

/-- Does `p` if nothing has been read since `left` tokens were left. -/
def ifStuck (left : Nat) (p : Parser Unit) : Parser Unit := do
  if (← get).rest.length = left then p else return ()

/-- Reads `token` or reports that it is missing. -/
def expect (token : Token) (what : String) : Parser (Option Span) := do
  match ← eat token with
  | some span => return some span
  | none => missing what; return none

/-- What stands behind `token`, if the token is there. -/
def behind? {α : Type} (token : Token) (p : Parser α) : Parser (Option α) := do
  match ← eat token with
  | some _ => return some (← p)
  | none => return none

def ident? : Parser (Option Ident) := do
  match (← get).peek with
  | .ident text =>
    let t ← bump
    return some ⟨text, t.span⟩
  | _ => return none

/-- The segments of a dotted name behind its first one. -/
def segments : List LaidToken → List Ident
  | ⟨.punct .dot, _, _, _⟩ :: ⟨.ident text, span, _, _⟩ :: ts => ⟨text, span⟩ :: segments ts
  | _ => []

/-- Reads a dotted name. A dot that no name follows is left. -/
def longIdent? : Parser (Option LongIdent) := do
  match ← ident? with
  | none => return none
  | some head =>
    let tail := segments (← get).rest
    modify fun s => { s with
      rest := s.rest.drop (2 * tail.length)
      prevEnd := (tail.getLast?.map (·.span.stop)).getD s.prevEnd }
    return some ⟨head, tail⟩

/-- Skips to the next token that starts a line at or left of `column`. -/
def synchronize (column : Nat) : Parser Unit :=
  skipWhile fun t => !(t.lineStart && t.column ≤ column)

/-- The next token closes or continues a construct around the current one. -/
def belongsOutside (s : ParserState) : Bool :=
  match s.peek with
  | .punct .rparen | .punct .rbracket | .punct .rbrace | .punct .comma | .punct .semicolon =>
    0 < s.nesting
  | .keyword .inKw | .keyword .thenKw | .keyword .elseKw => true
  | _ => false

/-- Reports and skips what is left of the current line. -/
def skipStray : Parser Unit := do
  let s ← get
  if s.atEnd || s.current.lineStart || belongsOutside s then return
  error (.unexpectedToken s.peek.text) s.current.span
  skipWhile fun t => !t.lineStart

def nested {α : Type} (p : Parser α) : Parser α := do
  modify fun s => { s with nesting := s.nesting + 1 }
  let a ← p
  modify fun s => { s with nesting := s.nesting - 1 }
  return a

def withOffside {α : Type} (column : Nat) (p : Parser α) : Parser α := do
  let saved := (← get).offside
  modify fun s => { s with offside := column }
  let a ← p
  modify fun s => { s with offside := saved }
  return a

/-- Makes the next token the first of a statement. -/
def setAnchor : Parser Unit := modify fun s => { s with anchor := some s.rest.length }

/-- Reads the closing bracket; without it reports `error` and ends at the last token. -/
def closing (close : Punct) (error : SyntaxError) : Parser Nat := do
  match ← eat (.punct close) with
  | some span => return span.stop
  | none => report error; return (← get).prevEnd

end Parser

end ScriptAnalyzer

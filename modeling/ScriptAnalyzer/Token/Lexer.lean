import ScriptAnalyzer.Token

/-!
The lexer: a text as a list of tokens, comments included.

At each place the longest text that some token class admits becomes the next token, and of two
classes that admit the same text the keywords win. A character at which no class begins is an error
token of its own; a block comment that does not end is an error token up to the end of the text.
`lexeme` cuts one token off a text, `tokens` cuts a text into all of its tokens.
-/

namespace ScriptAnalyzer
namespace Token

def isBlank (c : Char) : Bool := c == ' ' || c == '\t' || c == '\r' || c == '\n' || c == '\x0c'

def isDigit (c : Char) : Bool := '0' ≤ c && c ≤ '9'

def isLetter (c : Char) : Bool := ('a' ≤ c && c ≤ 'z') || ('A' ≤ c && c ≤ 'Z')

def startsName (c : Char) : Bool := isLetter c || c == '_'

def continuesTypeVar (c : Char) : Bool := startsName c || isDigit c

def continuesName (c : Char) : Bool := continuesTypeVar c || c == '\''

/-- The length of an exponent at the start of the text; zero if there is none. -/
def exponentLength : Text → Nat
  | e :: s :: cs =>
    if e == 'e' || e == 'E' then
      if isDigit s then 1 + ((s :: cs).takeWhile isDigit).length
      else if s == '+' || s == '-' then
        let digits := (cs.takeWhile isDigit).length
        if digits = 0 then 0 else 2 + digits
      else 0
    else 0
  | _ => 0

/-- The length of a fraction, its point included; zero if no digit follows the point. -/
def fractionLength : Text → Nat
  | '.' :: cs =>
    let digits := (cs.takeWhile isDigit).length
    if digits = 0 then 0 else 1 + digits
  | _ => 0

/-- The length of a string literal behind its opening quote, and whether it is closed on its line. -/
def stringLength : Text → Nat × Bool
  | [] => (0, false)
  | '"' :: _ => (1, true)
  | '\n' :: _ => (0, false)
  | ['\\'] => (0, false)
  | '\\' :: '\n' :: _ => (0, false)
  | '\\' :: _ :: cs => let r := stringLength cs; (r.1 + 2, r.2)
  | _ :: cs => let r := stringLength cs; (r.1 + 1, r.2)

/-- The length of a block comment behind its first mark, if it ends. Comments nest: `depth` more
marks of its kind are open. -/
def commentLength? : (depth : Nat) → Text → Option Nat
  | depth, '(' :: '*' :: cs => (commentLength? (depth + 1) cs).map (· + 2)
  | 0, '*' :: ')' :: _ => some 2
  | depth + 1, '*' :: ')' :: cs => (commentLength? depth cs).map (· + 2)
  | depth, _ :: cs => (commentLength? depth cs).map (· + 1)
  | _, [] => none

/-- The operator or separator at the start of the text, and its length. -/
def symbol? : Text → Option (Token × Nat)
  | '-' :: '>' :: _ => some (operator .arrow, 2)
  | '|' :: '>' :: _ => some (operator .pipeRight, 2)
  | '|' :: '|' :: _ => some (operator .orOr, 2)
  | '&' :: '&' :: _ => some (operator .andAnd, 2)
  | '<' :: '>' :: _ => some (operator .notEq, 2)
  | '<' :: '=' :: _ => some (operator .ltEq, 2)
  | '>' :: '=' :: _ => some (operator .gtEq, 2)
  | '=' :: _ => some (operator .eq, 1)
  | '<' :: _ => some (operator .lt, 1)
  | '>' :: _ => some (operator .gt, 1)
  | '+' :: _ => some (operator .plus, 1)
  | '-' :: _ => some (operator .minus, 1)
  | '*' :: _ => some (operator .star, 1)
  | '/' :: _ => some (operator .slash, 1)
  | '%' :: _ => some (operator .percent, 1)
  | '^' :: _ => some (operator .caret, 1)
  | '|' :: _ => some (operator .bar, 1)
  | ':' :: _ => some (punct .colon, 1)
  | ';' :: _ => some (punct .semicolon, 1)
  | ',' :: _ => some (punct .comma, 1)
  | '.' :: _ => some (punct .dot, 1)
  | '(' :: _ => some (punct .lparen, 1)
  | ')' :: _ => some (punct .rparen, 1)
  | '[' :: _ => some (punct .lbracket, 1)
  | ']' :: _ => some (punct .rbracket, 1)
  | '\x7b' :: _ => some (punct .lbrace, 1)
  | '\x7d' :: _ => some (punct .rbrace, 1)
  | _ => none

/-- The number at the start of a text that begins with a digit. -/
def number (cs : Text) : Token × Nat :=
  let whole := (cs.takeWhile isDigit).length
  let fraction := fractionLength (cs.drop whole)
  let exponent := exponentLength (cs.drop (whole + fraction))
  let length := whole + fraction + exponent
  let text := String.ofList (cs.take length)
  (if fraction + exponent = 0 then int text else float text, length)

/-- The name or keyword at the start of a text that begins with a letter or an underscore. -/
def name (cs : Text) : Token × Nat :=
  let text := String.ofList (cs.takeWhile continuesName)
  (match Keyword.ofText? text with | some k => keyword k | none => ident text,
    (cs.takeWhile continuesName).length)

/-- The token behind an apostrophe: a character literal, a type variable or an error. -/
def quoted (cs : Text) : Token × Nat :=
  let literal (n : Nat) : Token × Nat := (char (String.ofList ('\'' :: cs.take (n - 1))), n)
  let typeVariable : Token × Nat :=
    match cs with
    | c :: rest =>
      if startsName c then
        let tail := rest.takeWhile continuesTypeVar
        (typeVar (String.ofList ('\'' :: c :: tail)), 2 + tail.length)
      else (error, 1)
    | [] => (error, 1)
  match cs with
  | '\\' :: c :: '\'' :: _ => if c = '\n' then (error, 1) else literal 4
  | '\\' :: _ => (error, 1)
  | c :: '\'' :: _ => if c = '\'' || c = '\n' then (error, 1) else literal 3
  | _ => typeVariable

/-- The token at the start of a text that begins with `c`, and its length in characters. -/
def lexeme (c : Char) (cs : Text) : Token × Nat :=
  if isDigit c then number (c :: cs)
  else if startsName c then name (c :: cs)
  else if c = '"' then
    let body := stringLength cs
    let raw := String.ofList (c :: cs.take body.1)
    (if body.2 then string raw else unclosedString raw, 1 + body.1)
  else if c = '\'' then quoted cs
  else if c = '#' then
    let letters := cs.takeWhile isLetter
    if letters.isEmpty then (error, 1)
    else (directive (String.ofList (c :: letters)), 1 + letters.length)
  else match c, cs with
  | '/', '/' :: rest =>
    let body := rest.takeWhile (· ≠ '\n')
    (lineComment (String.ofList ('/' :: '/' :: body)), 2 + body.length)
  | '(', '*' :: rest =>
    match commentLength? 0 rest with
    | some n => (blockComment, 2 + n)
    | none => (error, 2 + rest.length)
  | _, _ => (symbol? (c :: cs)).getD (error, 1)

/-- The tokens of a text that stands at the byte `offset`. -/
def tokensFrom (offset : Nat) : Text → List (Token × Span)
  | [] => []
  | c :: cs =>
    if isBlank c then tokensFrom (offset + c.utf8Size) cs
    else
      let (token, length) := lexeme c cs
      let rest := cs.drop (length - 1)
      let stop := offset + Text.byteSize ((c :: cs).take length)
      (token, ⟨offset, stop⟩) :: tokensFrom stop rest
termination_by cs => cs.length
decreasing_by all_goals simp +arith

/-- All tokens of a text with the bytes that each covers. -/
def tokens (text : Text) : List (Token × Span) := tokensFrom 0 text

end Token
end ScriptAnalyzer

import ScriptAnalyzer.Text.Span

/-!
Tokens of the language and their written forms.
-/

namespace ScriptAnalyzer

inductive Keyword where
  | letKw | recKw | inKw | funKw | ifKw | thenKw | elseKw | openKw | moduleKw | typeKw | trueKw
  | falseKw | doKw
deriving DecidableEq, Repr

namespace Keyword

def text : Keyword → String
  | letKw => "let"
  | recKw => "rec"
  | inKw => "in"
  | funKw => "fun"
  | ifKw => "if"
  | thenKw => "then"
  | elseKw => "else"
  | openKw => "open"
  | moduleKw => "module"
  | typeKw => "type"
  | trueKw => "true"
  | falseKw => "false"
  | doKw => "do"

def all : List Keyword :=
  [letKw, recKw, inKw, funKw, ifKw, thenKw, elseKw, openKw, moduleKw, typeKw, trueKw, falseKw, doKw]

def ofText? (text : String) : Option Keyword := all.find? (·.text == text)

end Keyword

inductive Operator where
  | arrow | pipeRight | orOr | andAnd | notEq | ltEq | gtEq | eq | lt | gt | plus | minus | star | slash
  | percent | caret | bar
deriving DecidableEq, Repr

def Operator.text : Operator → String
  | arrow => "->"
  | pipeRight => "|>"
  | orOr => "||"
  | andAnd => "&&"
  | notEq => "<>"
  | ltEq => "<="
  | gtEq => ">="
  | eq => "="
  | lt => "<"
  | gt => ">"
  | plus => "+"
  | minus => "-"
  | star => "*"
  | slash => "/"
  | percent => "%"
  | caret => "^"
  | bar => "|"

inductive Punct where
  | colon | semicolon | comma | dot | lparen | rparen | lbracket | rbracket | lbrace | rbrace
deriving DecidableEq, Repr

def Punct.text : Punct → String
  | colon => ":"
  | semicolon => ";"
  | comma => ","
  | dot => "."
  | lparen => "("
  | rparen => ")"
  | lbracket => "["
  | rbracket => "]"
  | lbrace => "\x7b"
  | rbrace => "\x7d"

/-- A token. Literals, names and line comments carry their text as it stands in the source. -/
inductive Token where
  | float (text : String)
  | int (text : String)
  | string (raw : String)
  /-- A string literal without a closing quote on its line. -/
  | unclosedString (raw : String)
  | char (raw : String)
  | typeVar (text : String)
  | ident (text : String)
  | directive (text : String)
  | keyword (k : Keyword)
  | operator (o : Operator)
  | punct (p : Punct)
  | lineComment (text : String)
  | blockComment
  | eof
  /-- Text that starts no token, or a block comment that does not end. -/
  | error
deriving DecidableEq, Repr, Inhabited

namespace Token

def className : Token → String
  | float _ => "float"
  | int _ => "int"
  | string _ => "string"
  | unclosedString _ => "unclosed"
  | char _ => "char"
  | typeVar _ => "typevar"
  | ident _ => "ident"
  | directive _ => "directive"
  | keyword _ => "keyword"
  | operator _ => "operator"
  | punct _ => "punct"
  | lineComment _ => "line_comment"
  | blockComment => "block_comment"
  | eof => "eof"
  | error => "error"

def text : Token → String
  | float t | int t | string t | unclosedString t | char t | typeVar t | ident t | directive t
  | lineComment t => t
  | keyword k => k.text
  | operator o => o.text
  | punct p => p.text
  | blockComment => "(* *)"
  | eof => "end of file"
  | error => "<error>"

def isComment : Token → Bool
  | lineComment _ | blockComment => true
  | _ => false

def isIdent : Token → Bool
  | ident _ => true
  | _ => false

/-- Whether the token can begin an argument of an application. -/
def startsAtom : Token → Bool
  | int _ | float _ | string _ | unclosedString _ | char _ | ident _ => true
  | keyword .trueKw | keyword .falseKw => true
  | punct .lparen | punct .lbracket | punct .lbrace => true
  | _ => false

end Token

end ScriptAnalyzer

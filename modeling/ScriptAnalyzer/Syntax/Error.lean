import ScriptAnalyzer.Diagnostic

/-!
Syntax errors: what is wrong, where, and how it is reported.
-/

namespace ScriptAnalyzer

namespace SyntaxError

inductive Cause where
  | unexpectedChar (c : Char)
  | unexpectedEnd
  | expected (what : String)
  | expectedExpression
  | expectedMemberName
  | unclosedDelimiter (c : Char)
  | incompleteLet
  | unclosedString
  | invalidNumber (text : String)
  | unexpectedToken (text : String)
  | offside
  | invalidDirective (text : String)
  | unterminatedComment
  | unmatchedConditional (text : String)
  | invalidPattern
deriving DecidableEq, Repr

namespace Cause

def code : Cause → String
  | unexpectedChar _ => "P0001"
  | unexpectedEnd => "P0002"
  | expected _ => "P0003"
  | expectedExpression => "P0004"
  | expectedMemberName => "P0005"
  | unclosedDelimiter _ => "P0006"
  | incompleteLet => "P0007"
  | unclosedString => "P0008"
  | invalidNumber _ => "P0009"
  | unexpectedToken _ => "P0010"
  | offside => "P0011"
  | invalidDirective _ => "P0012"
  | unterminatedComment => "P0013"
  | unmatchedConditional _ => "P0014"
  | invalidPattern => "P0015"

def message : Cause → String
  | unexpectedChar c => "syntax error: unexpected '" ++ c.toString ++ "'"
  | unexpectedEnd => "unexpected end of file"
  | expected what => "expected " ++ what
  | expectedExpression => "expected an expression"
  | expectedMemberName => "expected a member name after '.'"
  | unclosedDelimiter c => "unclosed delimiter '" ++ c.toString ++ "'"
  | incompleteLet => "the block following this 'let' is unfinished"
  | unclosedString => "unclosed string literal"
  | invalidNumber text => "invalid number '" ++ text ++ "'"
  | unexpectedToken text => "unexpected '" ++ text ++ "'"
  | offside => "possible incorrect indentation"
  | invalidDirective text => "invalid directive '" ++ text ++ "'"
  | unterminatedComment => "unterminated block comment"
  | unmatchedConditional text => "unmatched '" ++ text ++ "'"
  | invalidPattern => "invalid pattern"

def label : Cause → String
  | unexpectedChar _ => "unexpected character"
  | unexpectedEnd => "unexpected end of file"
  | expected _ => "expected different token"
  | expectedExpression => "expected expression"
  | expectedMemberName => "expected member name"
  | unclosedDelimiter _ => "unclosed delimiter"
  | incompleteLet => "incomplete let"
  | unclosedString => "unclosed string"
  | invalidNumber _ => "invalid number"
  | unexpectedToken _ => "unexpected token"
  | offside => "indentation error"
  | invalidDirective _ => "invalid directive"
  | unterminatedComment => "unterminated comment"
  | unmatchedConditional _ => "unmatched conditional"
  | invalidPattern => "invalid pattern"

end Cause

end SyntaxError

structure SyntaxError where
  cause : SyntaxError.Cause
  span : Span
  /-- Where in the grammar the error stands, if that helps. -/
  context : Option String := none
  /-- How to mend the error, if that is known. -/
  hint : Option String := none
deriving DecidableEq, Repr

namespace SyntaxError

def render (e : SyntaxError) : String :=
  match e.context with
  | some context => e.cause.message ++ " (" ++ context ++ ")"
  | none => e.cause.message

def diagnostic (text : Text) (e : SyntaxError) : Diagnostic :=
  .located text e.cause.code .error e.render e.span

def le (a b : SyntaxError) : Bool := !b.span.before a.span

end SyntaxError

end ScriptAnalyzer

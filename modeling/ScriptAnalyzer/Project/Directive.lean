import ScriptAnalyzer.Token.Lexer
import ScriptAnalyzer.Token.Literal

/-!
Directive lines: a directive that starts its line, with everything behind it on the line as its
arguments. Comments are no arguments.
-/

namespace ScriptAnalyzer

structure DirectiveArgument where
  /-- The contents of a string literal; the text of any other token. -/
  text : Text
  quoted : Bool
  span : Span
deriving DecidableEq, Repr

structure DirectiveLine where
  name : String
  /-- From the hash to the end of the last argument. -/
  span : Span
  args : List DirectiveArgument
deriving DecidableEq, Repr

namespace DirectiveLine

/-- Whether only spaces and tabs stand in front of `offset` on its line. -/
def startsLine (text : Text) (offset : Nat) : Bool :=
  let before := (text.takeBytes? offset).getD []
  (before.reverse.takeWhile (· ≠ '\n')).all fun c => c == ' ' || c == '\t'

/-- The end of the line that `offset` lies on. -/
def lineEnd (text : Text) (offset : Nat) : Nat :=
  offset + Text.byteSize (((text.dropBytes? offset).getD []).takeWhile (· ≠ '\n'))

def argument (text : Text) : Token × Span → DirectiveArgument
  | (.string raw, span) | (.unclosedString raw, span) =>
    { text := Literal.unquote raw.toList, quoted := true, span }
  | (_, span) => { text := (span.slice? text).getD [], quoted := false, span }

/-- The directive lines among the tokens that start at `skipped` or later. -/
def collect (text : Text) (skipped : Nat) : List (Token × Span) → List DirectiveLine
  | [] => []
  | (token, span) :: rest =>
    if span.start < skipped then collect text skipped rest
    else match token with
    | .directive raw =>
      if startsLine text span.start then
        let stop := lineEnd text span.stop
        let onLine := rest.takeWhile fun t => t.2.start < stop
        let args := (onLine.filter fun t => !t.1.isComment).map (argument text)
        let line : DirectiveLine :=
          { name := String.ofList (raw.toList.dropWhile (· == '#'))
            span := ⟨span.start, (args.getLast?.map (·.span.stop)).getD span.stop⟩
            args }
        line :: collect text stop rest
      else collect text skipped rest
    | _ => collect text skipped rest

def all (text : Text) : List DirectiveLine := collect text 0 (Token.tokens text)

end DirectiveLine

end ScriptAnalyzer

import ScriptAnalyzer.Text.Position
import ScriptAnalyzer.Token.Lexer

/-!
The lexical class of the text at a place.
-/

namespace ScriptAnalyzer

inductive TokenClass where
  | identifier
  | keyword
  | string
  | number
  | char
  | operator
  | punctuation
  | directive
  | comment
  | whitespace
  | unknown
deriving DecidableEq, Repr

namespace TokenClass

def name : TokenClass → String
  | identifier => "identifier"
  | keyword => "keyword"
  | string => "string"
  | number => "number"
  | char => "char"
  | operator => "operator"
  | punctuation => "punctuation"
  | directive => "directive"
  | comment => "comment"
  | whitespace => "whitespace"
  | unknown => "unknown"

def ofToken : Token → TokenClass
  | .ident _ | .typeVar _ => identifier
  | .string _ | .unclosedString _ => string
  | .int _ | .float _ => number
  | .char _ => char
  | .directive _ => directive
  | .lineComment _ | .blockComment => comment
  | .error => unknown
  | .eof => whitespace
  | .keyword _ => keyword
  | .operator _ => operator
  | .punct _ => punctuation

end TokenClass

namespace Token

/-- The token at `offset`: the one that covers the byte behind it, else the one that ends there. -/
def covering? (tokens : List (Token × Span)) (offset : Nat) : Option (Token × Span) :=
  (tokens.find? fun t => t.2.start ≤ offset && offset < t.2.stop).or
    (tokens.find? fun t => t.2.stop == offset)

end Token

namespace Text

/-- The class and the span of the token at a byte offset. -/
def tokenAt? (text : Text) (offset : Nat) : Option (TokenClass × Span) :=
  (Token.covering? (Token.tokens text) offset).map fun t => (.ofToken t.1, t.2)

def classAt (text : Text) (offset : Nat) : TokenClass :=
  (tokenAt? text offset).elim .whitespace (·.1)

/-- The class at a position; positions outside the text lie between tokens. -/
def classAtPosition (text : Text) (p : Position) : TokenClass :=
  (offsetOf? text p).elim .whitespace (classAt text)

end Text

end ScriptAnalyzer

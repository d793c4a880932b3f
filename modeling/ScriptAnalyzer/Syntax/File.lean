import ScriptAnalyzer.Syntax.Parser.Decl
import ScriptAnalyzer.Text.Case

/-!
The syntax of a whole file: its declarations, and the errors in the order of the text. Every text has a
syntax; an error never keeps the rest of the file from being read.
-/

namespace ScriptAnalyzer

structure SyntaxFile where
  path : Path
  kind : SourceKind
  text : Text
  /-- The module that the file says to be. -/
  header : Option LongIdent
  decls : List Decl
  errors : List SyntaxError

namespace SyntaxFile

/-- A bound on the depth of the parser's recursion over `count` tokens. -/
def depthBound (count : Nat) : Nat := 32 * (count + 2)

/-- The parser in front of the first token of a text. -/
def start (text : Text) (kind : SourceKind) (defines : List String) : ParserState :=
  let (tokens, errors) := significantTokens text defines
  { rest := tokens, size := text.byteSize, kind, errors }

/-- Reads a file whose conditional regions see the symbols `defines`. -/
def parse (path : Path) (text : Text) (kind : SourceKind) (defines : List String) : SyntaxFile :=
  let s := start text kind defines
  let ((header, decls), s) := (Parser.file (depthBound s.rest.length)).run s
  { path, kind, text, header, decls, errors := s.errors.mergeSort SyntaxError.le }

def hasErrors (f : SyntaxFile) : Bool := !f.errors.isEmpty

def diagnostics (f : SyntaxFile) : List Diagnostic := f.errors.map (SyntaxError.diagnostic f.text)

/-- The module that the declarations belong to: the one of the header, or the one that a module file is
named for. -/
def moduleName? (f : SyntaxFile) : Option String :=
  match f.header, f.kind with
  | some name, _ => some name.render
  | none, .script => none
  | none, .module => f.path.fileStem?.map fun stem => String.ofList (Text.capitalize stem)

/-- The expressions whose span touches `offset`, outermost first. -/
def exprsAt (f : SyntaxFile) (offset : Nat) : List Expr :=
  (Decl.exprsOfAll f.decls).filter (·.span.touches offset)

end SyntaxFile

end ScriptAnalyzer

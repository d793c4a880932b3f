import ScriptAnalyzer.Text.Span

/-!
Symbols: the named entities of a program, with the text of their types and signatures.
-/

namespace ScriptAnalyzer

inductive SymbolKind where
  | value
  | function
  | type
  | module
deriving DecidableEq, Repr

namespace SymbolKind

/-- The word in front of a declaration of this kind. -/
def keyword : SymbolKind → String
  | value => "val"
  | function => "val"
  | type => "type"
  | module => "module"

def name : SymbolKind → String
  | value => "value"
  | function => "function"
  | type => "type"
  | module => "module"

end SymbolKind

/-- A parameter of a signature; `type` is the text of its type. -/
structure Parameter where
  name : String
  type : String
  optional : Bool := false
  variadic : Bool := false
deriving DecidableEq, Repr

def Parameter.render (p : Parameter) : String :=
  (if p.variadic then "params " else "") ++ (if p.optional then "?" else "") ++ p.name ++ ": " ++ p.type

structure Signature where
  parameters : List Parameter
  returnType : String
deriving DecidableEq, Repr

/-- Writes a signature as `name(a: t, b: u) : r`. -/
def Signature.render (s : Signature) (name : String) : String :=
  name ++ "(" ++ ", ".intercalate (s.parameters.map Parameter.render) ++ ") : " ++ s.returnType

structure Symbol where
  /-- The qualified name, with dots between its segments. -/
  name : String
  kind : SymbolKind
  signature : String
  /-- The overloads in the order of their declaration; values have none. -/
  overloads : List Signature := []
  /-- Where the symbol is declared, if in the analysed file. -/
  span : Option Span := none
  doc : Option String := none
deriving DecidableEq, Repr

def lastSegment (name : Text) : Text := (name.reverse.takeWhile (· ≠ '.')).reverse

def Symbol.simpleName (s : Symbol) : String := String.ofList (lastSegment s.name.toList)

end ScriptAnalyzer

import ScriptAnalyzer.Typing.Ty

/-!
Signatures of curried functions.

The written form of a function type is cut at the arrows outside all parentheses. So the type variables
have the same names in all parts of a signature.
-/

namespace ScriptAnalyzer

/-- Puts a character in front of the first text. -/
def consFirst (c : Char) : List Text → List Text
  | [] => [[c]]
  | t :: ts => (c :: t) :: ts

/-- The parts of a written type between its arrows, with `depth` parentheses open at its start. -/
def splitArrows : (depth : Nat) → Text → List Text
  | _, [] => [[]]
  | 0, ' ' :: '-' :: '>' :: ' ' :: cs => [] :: splitArrows 0 cs
  | depth, '(' :: cs => consFirst '(' (splitArrows (depth + 1) cs)
  | depth, ')' :: cs => consFirst ')' (splitArrows (depth - 1) cs)
  | depth, c :: cs => consFirst c (splitArrows depth cs)

/-- Whether no parenthesis of the text closes one in front of it. -/
def isBalancedInside : (depth : Nat) → Text → Bool
  | _, [] => true
  | depth, '(' :: cs => isBalancedInside (depth + 1) cs
  | 0, ')' :: _ => false
  | depth + 1, ')' :: cs => isBalancedInside depth cs
  | depth, _ :: cs => isBalancedInside depth cs

/-- Removes parentheses around the whole text; `(a) * (b)` has none. -/
def stripParens (text : Text) : Text :=
  match text with
  | '(' :: cs =>
    if cs.getLast? = some ')' && isBalancedInside 0 cs.dropLast then cs.dropLast else text
  | _ => text

/-- The parameters of a signature; those without a name are numbered from one. -/
def nameParameters (names : List String) (index : Nat) : List Text → List Parameter
  | [] => []
  | t :: ts =>
    { name := names.headD ("arg" ++ toString (index + 1)), type := String.ofList (stripParens t) } ::
      nameParameters names.tail (index + 1) ts

/-- The signature of a function type; no other type has one. -/
def Ty.signature? (t : Ty) (names : List String) : Option Signature :=
  if t.curriedParams.isEmpty then none
  else
    let parts := splitArrows 0 t.text
    some
      { parameters := nameParameters names 0 parts.dropLast
        returnType := String.ofList (parts.getLast?.getD []) }

end ScriptAnalyzer

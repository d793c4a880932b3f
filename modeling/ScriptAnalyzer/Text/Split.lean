/-!
Cutting texts at a character.
-/

namespace ScriptAnalyzer
namespace Text

/-- The pieces of a text between the separators; there is always one more than there are separators. -/
def splitOn (separator : Char) : List Char → List (List Char)
  | [] => [[]]
  | c :: cs =>
    if c = separator then [] :: splitOn separator cs
    else match splitOn separator cs with
      | piece :: pieces => (c :: piece) :: pieces
      | [] => [[c]]

end Text
end ScriptAnalyzer

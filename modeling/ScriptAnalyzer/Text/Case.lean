import ScriptAnalyzer.Text.CaseTable

/-!
Lower and upper case of texts.

Each character has its own lower case, except that a capital sigma becomes a final sigma at the end of
a word: behind a cased character and in front of none, where case-ignorable characters in between do
not count.
-/

namespace ScriptAnalyzer
namespace Text

/-- The image of a character under a case mapping; one that no table names stays as it is. -/
def mapCase (rows : List CaseRow) (expansions : List (Nat × List Nat)) (c : Char) : List Char :=
  match expansions.lookup c.toNat with
  | some image => image.map Char.ofNat
  | none =>
    match rows.find? (·.covers c.toNat) with
    | some row => [Char.ofNat (row.apply c.toNat)]
    | none => [c]

def lowerChar (c : Char) : List Char := mapCase lowerRows lowerExpansions c

def upperChar (c : Char) : List Char := mapCase upperRows upperExpansions c

/-- Whether the first character of the text that is not case-ignorable is cased. -/
def nextIsCased (text : List Char) : Bool :=
  match text.dropWhile (inRanges caseIgnorableRanges) with
  | c :: _ => inRanges casedRanges c
  | [] => false

/-- The lower case of `text` behind the characters `before`, the nearest one first. -/
def lowerFrom (before : List Char) : List Char → List Char
  | [] => []
  | c :: cs =>
    let image :=
      if c = 'Σ' then if nextIsCased before && !nextIsCased cs then ['ς'] else ['σ']
      else lowerChar c
    image ++ lowerFrom (c :: before) cs

def toLower (text : List Char) : List Char := lowerFrom [] text

/-- The text with its first character in upper case. -/
def capitalize : List Char → List Char
  | [] => []
  | c :: cs => upperChar c ++ cs

end Text
end ScriptAnalyzer

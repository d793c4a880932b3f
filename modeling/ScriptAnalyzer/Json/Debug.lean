import ScriptAnalyzer.Json.Value
import ScriptAnalyzer.Text.Quoted

/-!
JSON values as they are shown in messages to developers, with the kind of each value in front of it.
-/

namespace ScriptAnalyzer
namespace Json

mutual

def debug : Json → String
  | null => "Null"
  | bool b => if b then "Bool(true)" else "Bool(false)"
  | integer n => "Number(" ++ toString n ++ ")"
  | float bits => "Number(" ++ Numeral.floatText bits ++ ")"
  | string s => "String(" ++ Text.quoted s ++ ")"
  | array items => "Array [" ++ ", ".intercalate (debugItems items) ++ "]"
  | object members => "Object \x7b" ++ ", ".intercalate (debugMembers members) ++ "\x7d"

def debugItems : List Json → List String
  | [] => []
  | j :: js => j.debug :: debugItems js

def debugMembers : List (String × Json) → List String
  | [] => []
  | (key, j) :: ms => (Text.quoted key ++ ": " ++ j.debug) :: debugMembers ms

end

end Json
end ScriptAnalyzer

import ScriptAnalyzer.Json.Number

/-!
JSON values and their two written forms: on one line, and indented.
-/

namespace ScriptAnalyzer

inductive Json where
  | null
  | bool (b : Bool)
  | integer (n : Int)
  | float (bits : UInt64)
  | string (s : String)
  | array (items : List Json)
  | object (members : List (String × Json))
deriving Inhabited

namespace Json

def nat (n : Nat) : Json := integer n

/-- An object without the members that have no value. -/
def sparse (members : List (String × Option Json)) : Json :=
  object (members.filterMap fun m => m.2.map (m.1, ·))

def field? (key : String) : Json → Option Json
  | object members => members.lookup key
  | _ => none

def items : Json → List Json
  | array items => items
  | _ => []

/-- The escaped form of a character inside a string. -/
def escape (c : Char) : List Char :=
  match c with
  | '"' => ['\\', '"']
  | '\\' => ['\\', '\\']
  | '\n' => ['\\', 'n']
  | '\r' => ['\\', 'r']
  | '\t' => ['\\', 't']
  | c =>
    if c.toNat = 0x8 then ['\\', 'b']
    else if c.toNat = 0xC then ['\\', 'f']
    else if c.toNat < 0x20 then
      ['\\', 'u', '0', '0', Nat.digitChar (c.toNat / 16), Nat.digitChar (c.toNat % 16)]
    else [c]

def quote (s : String) : String := "\"" ++ String.ofList (s.toList.flatMap escape) ++ "\""

mutual

def compact : Json → String
  | null => "null"
  | bool b => if b then "true" else "false"
  | integer n => toString n
  | float bits => Numeral.floatText bits
  | string s => quote s
  | array items => "[" ++ ",".intercalate (compactItems items) ++ "]"
  | object members => "\x7b" ++ ",".intercalate (compactMembers members) ++ "\x7d"

def compactItems : List Json → List String
  | [] => []
  | j :: js => j.compact :: compactItems js

def compactMembers : List (String × Json) → List String
  | [] => []
  | (key, j) :: ms => (quote key ++ ":" ++ j.compact) :: compactMembers ms

end

/-- Lines between brackets, indented one step further than the brackets. -/
def bracketed (opening closing : String) (indent : Nat) (lines : List String) : String :=
  if lines.isEmpty then opening ++ closing
  else
    let margin (n : Nat) := "\n" ++ String.ofList (List.replicate n ' ')
    opening ++ margin (indent + 2) ++ ("," ++ margin (indent + 2)).intercalate lines ++
      margin indent ++ closing

mutual

/-- A value with a line for each item and member. -/
def indented (indent : Nat) : Json → String
  | null => "null"
  | bool b => if b then "true" else "false"
  | integer n => toString n
  | float bits => Numeral.floatText bits
  | string s => quote s
  | array items => bracketed "[" "]" indent (indentedItems (indent + 2) items)
  | object members => bracketed "\x7b" "\x7d" indent (indentedMembers (indent + 2) members)

def indentedItems (indent : Nat) : List Json → List String
  | [] => []
  | j :: js => j.indented indent :: indentedItems indent js

def indentedMembers (indent : Nat) : List (String × Json) → List String
  | [] => []
  | (key, j) :: ms => (quote key ++ ": " ++ j.indented indent) :: indentedMembers indent ms

end

/-- The indented form from the left margin on. -/
def pretty (j : Json) : String := j.indented 0

end Json
end ScriptAnalyzer

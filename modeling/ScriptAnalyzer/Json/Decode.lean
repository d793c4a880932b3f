import ScriptAnalyzer.Json.Value
import ScriptAnalyzer.Text.Quoted

/-!
Decoding of JSON values into records, and the reasons why a value is refused.

A record can be written as an object, with its fields in any order, or as an array of its fields.
Members that are no fields are ignored. Fields with wrong values are found in the order of their names,
and before missing fields, which are found in the order of the record.
-/

namespace ScriptAnalyzer

inductive DecodeError where
  | wrongType (found expected : String)
  | outOfRange (n : Int) (expected : String)
  | missingField (name : String)
  /-- An array with too few or too many items. -/
  | wrongLength (length : Nat) (expected : String)
  | noVariant (type : String)
  /-- A word that is not among the known ones. -/
  | unknownWord (word : String) (known : List String)
  /-- The value breaks a rule of its own. -/
  | invalid (reason : String)
deriving DecidableEq, Repr

def DecodeError.message : DecodeError → String
  | wrongType found expected => "invalid type: " ++ found ++ ", expected " ++ expected
  | outOfRange n expected => "invalid value: integer `" ++ toString n ++ "`, expected " ++ expected
  | missingField name => "missing field `" ++ name ++ "`"
  | wrongLength length expected => "invalid length " ++ toString length ++ ", expected " ++ expected
  | noVariant type => "data did not match any variant of untagged enum " ++ type
  | unknownWord word known => "unknown variant `" ++ word ++ "`, expected one of " ++
    ", ".intercalate (known.map fun w => "`" ++ w ++ "`")
  | invalid reason => reason

namespace Json

def describe : Json → String
  | null => "null"
  | bool b => "boolean `" ++ (if b then "true" else "false") ++ "`"
  | integer n => "integer `" ++ toString n ++ "`"
  | float bits => "floating point `" ++ Numeral.floatText bits ++ "`"
  | string s => "string " ++ Text.quoted s
  | array _ => "sequence"
  | object _ => "map"

abbrev Decoder (α : Type) := Json → Except DecodeError α

namespace Decoder

def text : Decoder String
  | string s => .ok s
  | j => .error (.wrongType j.describe "a string")

def boolean : Decoder Bool
  | bool b => .ok b
  | j => .error (.wrongType j.describe "a boolean")

/-- An integer between bounds, the upper one excluded. -/
def integer (type : String) (lower upper : Int) : Decoder Int
  | .integer n => if lower ≤ n ∧ n < upper then .ok n else .error (.outOfRange n type)
  | j => .error (.wrongType j.describe type)

def unsigned32 : Decoder Nat := fun j => (integer "u32" 0 0x100000000 j).map Int.toNat

def signed32 : Decoder Int := integer "i32" (-0x80000000) 0x80000000

/-- A value that may be missing, which null stands for. -/
def optional {α : Type} (d : Decoder α) : Decoder (Option α)
  | null => .ok none
  | j => (d j).map some

def list {α : Type} (d : Decoder α) : Decoder (List α)
  | array items => items.mapM d
  | j => .error (.wrongType j.describe "a sequence")

/-- One of several words, also as the only member of an object. -/
def oneOf (known : List String) : Decoder Unit := fun j => do
  let word ← match j with
    | string s => pure s
    | object [(key, null)] => pure key
    | object [(_, j)] => throw (.wrongType j.describe "unit")
    | object _ => throw (.invalid "invalid value: map, expected map with a single key")
    | j => throw (.wrongType j.describe "string or map")
  if !known.contains word then throw (.unknownWord word known)

/-- A value that is decoded in one of two ways. -/
def either {α β : Type} (type : String) (d : Decoder α) (e : Decoder β) : Decoder Unit := fun j =>
  if (d j).isOk || (e j).isOk then .ok () else .error (.noVariant type)

def anything : Decoder Unit := fun _ => .ok ()

end Decoder

inductive Presence where
  | required
  | optional
  /-- It may be missing in an object and at the end of an array. -/
  | defaulted
deriving DecidableEq, Repr

structure Field where
  name : String
  check : Decoder Unit
  presence : Presence

/-- How the items of an array that is too long are counted. -/
inductive Surplus where
  | fewer
  | exactly
deriving DecidableEq, Repr

def elements (n : Nat) : String := toString n ++ if n = 1 then " element" else " elements"

def Surplus.expected (count : Nat) : Surplus → String
  | fewer => "fewer elements in array"
  | exactly => elements count ++ " in sequence"

namespace Field

def required {α : Type} (name : String) (d : Decoder α) : Field :=
  { name, check := fun j => (d j).map fun _ => (), presence := .required }

def optional {α : Type} (name : String) (d : Decoder α) : Field :=
  { name, check := fun j => (d.optional j).map fun _ => (), presence := .optional }

def defaulted {α : Type} (name : String) (d : Decoder α) : Field :=
  { name, check := fun j => (d.optional j).map fun _ => (), presence := .defaulted }

/-- Checks the members that are fields, and that no field is missing. -/
def checkMembers (fields : List Field) (members : List (String × Json)) : Except DecodeError Unit := do
  for f in fields.mergeSort (fun f g => f.name ≤ g.name) do
    if let some j := members.lookup f.name then f.check j
  for f in fields do
    if f.presence = .required && (members.lookup f.name).isNone then throw (.missingField f.name)

/-- Gives the items of an array to the fields, in their order. -/
def nameItems (type : String) (surplus : Surplus) (fields : List Field) (items : List Json) :
    Except DecodeError (List (String × Json)) := do
  for (f, j) in fields.zip items do f.check j
  let missing := (fields.drop items.length).takeWhile (·.presence = .defaulted)
  let found := items.length + missing.length
  if found < fields.length then
    throw (.wrongLength found (type ++ " with " ++ elements fields.length))
  if fields.length < items.length then
    throw (.wrongLength items.length (surplus.expected fields.length))
  return (fields.map (·.name)).zip items

end Field

/-- The fields of a record that is written as an object. -/
def objectFields (type : String) (fields : List Field) (j : Json) :
    Except DecodeError (String → Json) :=
  match j with
  | object members => do
    Field.checkMembers fields members
    return fun name => (members.lookup name).getD null
  | j => .error (.wrongType j.describe type)

/-- The fields of a record that is written as an object or as an array. -/
def recordFields (type : String) (surplus : Surplus) (fields : List Field) (j : Json) :
    Except DecodeError (String → Json) :=
  match j with
  | array items => do
    let members ← Field.nameItems type surplus fields items
    return fun name => (members.lookup name).getD null
  | j => objectFields type fields j

def record (type : String) (fields : List Field) : Decoder Unit := fun j => do
  discard <| recordFields type .fewer fields j

end Json
end ScriptAnalyzer

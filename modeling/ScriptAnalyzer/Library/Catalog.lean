import ScriptAnalyzer.Library.Entity

/-!
The built-in libraries.
-/

namespace ScriptAnalyzer
namespace Catalog

/-- The first and the second type variable of a member's type. -/
def a : Ty := .var 0

def b : Ty := .var 1

def param (name : String) (type : Ty) : TypedParameter := { name, type }

def rest (name : String) (element : Ty) : TypedParameter :=
  { name, type := .array element, variadic := true }

def value (name : String) (type : Ty) (params : List String) (doc : String) : Member :=
  { name, kind := .value (.poly type) params, doc := some doc }

def method (name : String) (overloads : List Overload) : Member :=
  { name, kind := .method false overloads }

def staticMethod (name : String) (overloads : List Overload) : Member :=
  { name, kind := .method true overloads }

def property (name : String) (type : Ty) : Member := { name, kind := .property false type }

def staticProperty (name : String) (type : Ty) : Member := { name, kind := .property true type }

def core : Entity where
  path := "Core"
  kind := .module
  autoOpen := true
  doc := some "Functions available in every file."
  members := [
    value "printfn" (.function .string .unit) ["format"]
      "Print formatted text followed by a newline.",
    value "printf" (.function .string .unit) ["format"] "Print formatted text.",
    value "sprintf" (.function .string .string) ["format"] "Format text into a string.",
    value "failwith" (.function .string a) ["message"] "Raise an exception with the given message.",
    value "failwithf" (.function .string a) ["format"] "Raise an exception with a formatted message.",
    value "ignore" (.function a .unit) ["value"] "Discard a value.",
    value "id" (.function a a) ["x"] "The identity function.",
    value "fst" (.function (.tuple [a, b]) a) ["tuple"] "First element of a pair.",
    value "snd" (.function (.tuple [a, b]) b) ["tuple"] "Second element of a pair.",
    value "not" (.function .bool .bool) ["value"] "Boolean negation.",
    value "string" (.function a .string) ["value"] "Convert a value to a string.",
    value "int" (.function a .int) ["value"] "Convert a value to an integer.",
    value "float" (.function a .float) ["value"] "Convert a value to a float."]

def list : Entity where
  path := "List"
  kind := .module
  doc := some "Operations on immutable lists."
  members := [
    value "map" (.curried [.function a b, .list a] (.list b)) ["mapping", "list"]
      "Apply a function to each element.",
    value "filter" (.curried [.function a .bool, .list a] (.list a)) ["predicate", "list"]
      "Keep the elements satisfying a predicate.",
    value "length" (.function (.list a) .int) ["list"] "Number of elements.",
    value "head" (.function (.list a) a) ["list"] "First element.",
    value "sum" (.function (.list .int) .int) ["list"] "Sum of the elements.",
    value "isEmpty" (.function (.list a) .bool) ["list"] "Whether the list has no elements.",
    value "rev" (.function (.list a) (.list a)) ["list"] "Elements in reverse order."]

def system : Entity where
  path := "System"
  kind := .nameSpace
  autoOpen := true
  doc := some "Base class library."

def object : Entity where
  path := "System.Object"
  kind := .type
  doc := some "The root of the type hierarchy."
  members := [
    method "ToString" [⟨[], .string⟩],
    method "GetHashCode" [⟨[], .int⟩],
    method "Equals" [⟨[param "obj" .obj], .bool⟩]]

def string : Entity where
  path := "System.String"
  kind := .type
  doc := some "Immutable UTF-16 text."
  members := [
    property "Length" .int,
    method "Substring" [
      ⟨[param "startIndex" .int], .string⟩,
      ⟨[param "startIndex" .int, param "length" .int], .string⟩],
    method "ToUpper" [⟨[], .string⟩],
    method "ToLower" [⟨[], .string⟩],
    method "Trim" [⟨[], .string⟩],
    method "Contains" [⟨[param "value" .string], .bool⟩],
    method "StartsWith" [⟨[param "value" .string], .bool⟩],
    method "EndsWith" [⟨[param "value" .string], .bool⟩],
    method "IndexOf" [⟨[param "value" .string], .int⟩, ⟨[param "value" .char], .int⟩],
    method "Replace" [⟨[param "oldValue" .string, param "newValue" .string], .string⟩],
    method "Split" [⟨[rest "separator" .char], .array .string⟩],
    staticMethod "Concat" [
      ⟨[param "str0" .string, param "str1" .string], .string⟩,
      ⟨[param "str0" .string, param "str1" .string, param "str2" .string], .string⟩,
      ⟨[param "str0" .string, param "str1" .string, param "str2" .string, param "str3" .string],
        .string⟩,
      ⟨[rest "args" .obj], .string⟩],
    staticMethod "Join" [⟨[param "separator" .string, rest "values" .string], .string⟩],
    staticMethod "IsNullOrEmpty" [⟨[param "value" .string], .bool⟩],
    staticMethod "Format" [⟨[param "format" .string, rest "args" .obj], .string⟩],
    staticProperty "Empty" .string]

def int32 : Entity where
  path := "System.Int32"
  kind := .type
  doc := some "A 32-bit signed integer."
  members := [
    staticMethod "Parse" [⟨[param "s" .string], .int⟩],
    staticProperty "MaxValue" .int,
    staticProperty "MinValue" .int]

def math : Entity where
  path := "System.Math"
  kind := .type
  doc := some "Common mathematical functions."
  members := [
    staticMethod "Abs" [⟨[param "value" .int], .int⟩, ⟨[param "value" .float], .float⟩],
    staticMethod "Max" [
      ⟨[param "val1" .int, param "val2" .int], .int⟩,
      ⟨[param "val1" .float, param "val2" .float], .float⟩],
    staticMethod "Min" [
      ⟨[param "val1" .int, param "val2" .int], .int⟩,
      ⟨[param "val1" .float, param "val2" .float], .float⟩],
    staticMethod "Sqrt" [⟨[param "d" .float], .float⟩],
    staticMethod "Pow" [⟨[param "x" .float, param "y" .float], .float⟩],
    staticProperty "PI" .float]

def console : Entity where
  path := "System.Console"
  kind := .type
  doc := some "Standard input and output streams."
  members := [
    staticMethod "WriteLine" [
      ⟨[], .unit⟩,
      ⟨[param "value" .string], .unit⟩,
      ⟨[param "value" .int], .unit⟩,
      ⟨[param "value" .obj], .unit⟩,
      ⟨[param "format" .string, rest "arg" .obj], .unit⟩],
    staticMethod "Write" [⟨[param "value" .string], .unit⟩, ⟨[param "value" .obj], .unit⟩],
    staticMethod "ReadLine" [⟨[], .string⟩]]

def systemText : Entity where
  path := "System.Text"
  kind := .nameSpace
  doc := some "Text encoding and building."

def builder : Ty := .atom "System.Text.StringBuilder"

def stringBuilder : Entity where
  path := "System.Text.StringBuilder"
  kind := .type
  doc := some "A mutable string of characters."
  constructors := [
    ⟨[], builder⟩, ⟨[param "value" .string], builder⟩, ⟨[param "capacity" .int], builder⟩]
  members := [
    method "Append" [
      ⟨[param "value" .string], builder⟩,
      ⟨[param "value" .char], builder⟩,
      ⟨[param "value" .int], builder⟩,
      ⟨[param "value" .obj], builder⟩],
    method "AppendLine" [⟨[], builder⟩, ⟨[param "value" .string], builder⟩],
    method "Clear" [⟨[], builder⟩],
    property "Length" .int]

def systemFiles : Entity where
  path := "System.IO"
  kind := .nameSpace
  doc := some "Files and paths."

def file : Entity where
  path := "System.IO.File"
  kind := .type
  doc := some "Static methods for whole-file operations."
  members := [
    staticMethod "ReadAllText" [⟨[param "path" .string], .string⟩],
    staticMethod "ReadAllLines" [⟨[param "path" .string], .array .string⟩],
    staticMethod "WriteAllText" [⟨[param "path" .string, param "contents" .string], .unit⟩],
    staticMethod "AppendAllText" [⟨[param "path" .string, param "contents" .string], .unit⟩],
    staticMethod "Exists" [⟨[param "path" .string], .bool⟩]]

def path : Entity where
  path := "System.IO.Path"
  kind := .type
  doc := some "Operations on path strings."
  members := [
    staticMethod "Combine" [
      ⟨[param "path1" .string, param "path2" .string], .string⟩,
      ⟨[param "path1" .string, param "path2" .string, param "path3" .string], .string⟩,
      ⟨[rest "paths" .string], .string⟩],
    staticMethod "GetFileName" [⟨[param "path" .string], .string⟩],
    staticMethod "GetFileNameWithoutExtension" [⟨[param "path" .string], .string⟩],
    staticMethod "GetExtension" [⟨[param "path" .string], .string⟩],
    staticMethod "GetDirectoryName" [⟨[param "path" .string], .string⟩]]

def libraries : List (String × List Entity) := [
  ("Core", [core, list]),
  ("System", [system, object, string, int32, math, console]),
  ("System.Text", [systemText, stringBuilder]),
  ("System.IO", [systemFiles, file, path])]

def hasLibrary (name : String) : Bool := libraries.any (·.1 == name)

/-- The entities of the libraries with these names. -/
def entitiesOf (names : List String) : List Entity :=
  (libraries.filter fun l => names.contains l.1).flatMap (·.2)

end Catalog
end ScriptAnalyzer

import ScriptAnalyzer.Json.Value

/-!
Reading JSON texts. Members of an object are kept in the order of their names, and of several members of
one name the last.
-/

namespace ScriptAnalyzer
namespace Json

def insertMember (key : String) (value : Json) : List (String × Json) → List (String × Json)
  | [] => [(key, value)]
  | m :: ms =>
    if key < m.1 then (key, value) :: m :: ms
    else if key = m.1 then (key, value) :: ms
    else m :: insertMember key value ms

namespace Reader

def skipBlanks (cs : List Char) : List Char :=
  cs.dropWhile fun c => c = ' ' || c = '\n' || c = '\r' || c = '\t'

def hexDigit? (c : Char) : Option Nat :=
  if c.isDigit then some (c.toNat - '0'.toNat)
  else if 'a' ≤ c ∧ c ≤ 'f' then some (c.toNat - 'a'.toNat + 10)
  else if 'A' ≤ c ∧ c ≤ 'F' then some (c.toNat - 'A'.toNat + 10)
  else none

def hex4? : List Char → Option (Nat × List Char)
  | a :: b :: c :: d :: cs => do
    return ((← hexDigit? a) * 4096 + (← hexDigit? b) * 256 + (← hexDigit? c) * 16 + (← hexDigit? d), cs)
  | _ => none

/-- The character of an escape that has no number. -/
def simpleEscape? : Char → Option Char
  | '"' => some '"'
  | '\\' => some '\\'
  | '/' => some '/'
  | 'b' => some (Char.ofNat 0x8)
  | 'f' => some (Char.ofNat 0xC)
  | 'n' => some '\n'
  | 'r' => some '\r'
  | 't' => some '\t'
  | _ => none

/-- The character of an escape, read from behind the backslash. A number in the range of the first half of
a pair needs the second half behind it. -/
def escape? : List Char → Option (Char × List Char)
  | 'u' :: cs => do
    let (n, cs) ← hex4? cs
    if n < 0xD800 || 0xE000 ≤ n then return (Char.ofNat n, cs)
    if 0xDC00 ≤ n then none
    match cs with
    | '\\' :: 'u' :: cs =>
      let (m, cs) ← hex4? cs
      if 0xDC00 ≤ m && m < 0xE000 then
        return (Char.ofNat (0x10000 + (n - 0xD800) * 0x400 + (m - 0xDC00)), cs)
      else none
    | _ => none
  | c :: cs => (simpleEscape? c).map (·, cs)
  | [] => none

/-- The contents of a string up to its closing quote, and the text behind it. -/
def string? : (fuel : Nat) → List Char → List Char → Option (String × List Char)
  | 0, _, _ => none
  | _ + 1, _, [] => none
  | fuel + 1, found, c :: cs =>
    if c = '"' then some (String.ofList found.reverse, cs)
    else if c = '\\' then do
      let (c, cs) ← escape? cs
      string? fuel (c :: found) cs
    else if c.toNat < 0x20 then none
    else string? fuel (c :: found) cs

/-- The exponent behind an `e`, if there is one, and the text behind it. -/
def exponent? (cs : List Char) : Option (Option Int × List Char) :=
  match cs with
  | c :: rest =>
    if c = 'e' || c = 'E' then
      let (negative, rest) := match rest with
        | '-' :: rest => (true, rest)
        | '+' :: rest => (false, rest)
        | rest => (false, rest)
      let digits := rest.takeWhile Char.isDigit
      if digits.isEmpty then none
      else
        let n : Int := Binary64.digitsValue digits
        some (some (if negative then -n else n), rest.drop digits.length)
    else some (none, cs)
  | [] => some (none, cs)

/-- The digits behind a point, and the text behind them. -/
def places? : List Char → Option (List Char × List Char)
  | '.' :: cs =>
    let digits := cs.takeWhile Char.isDigit
    if digits.isEmpty then none else some (digits, cs.drop digits.length)
  | cs => some ([], cs)

def number? (cs : List Char) : Option (Json × List Char) := do
  let (isNegative, rest) := match cs with
    | '-' :: rest => (true, rest)
    | rest => (false, rest)
  let whole := rest.takeWhile Char.isDigit
  if whole.isEmpty || (1 < whole.length && whole.head? = some '0') then none
  let (places, rest) ← places? (rest.drop whole.length)
  let (power, rest) ← exponent? rest
  let parts : Numeral.Parts := { isNegative, whole, places, power }
  match parts.integer? with
  | some n => return (.integer n, rest)
  | none => return (.float (← parts.float?), rest)

mutual

def value? : (fuel : Nat) → List Char → Option (Json × List Char)
  | 0, _ => none
  | fuel + 1, cs =>
    match skipBlanks cs with
    | 'n' :: 'u' :: 'l' :: 'l' :: cs => some (.null, cs)
    | 't' :: 'r' :: 'u' :: 'e' :: cs => some (.bool true, cs)
    | 'f' :: 'a' :: 'l' :: 's' :: 'e' :: cs => some (.bool false, cs)
    | '"' :: cs => (string? (cs.length + 1) [] cs).map fun r => (.string r.1, r.2)
    | '[' :: cs =>
      match skipBlanks cs with
      | ']' :: cs => some (.array [], cs)
      | cs => items? fuel [] cs
    | '\x7b' :: cs =>
      match skipBlanks cs with
      | '\x7d' :: cs => some (.object [], cs)
      | cs => members? fuel [] cs
    | cs => number? cs

/-- The items of an array from one item on, behind those found. -/
def items? : (fuel : Nat) → List Json → List Char → Option (Json × List Char)
  | 0, _, _ => none
  | fuel + 1, found, cs => do
    let (item, cs) ← value? fuel cs
    match skipBlanks cs with
    | ',' :: cs => items? fuel (item :: found) cs
    | ']' :: cs => return (.array (item :: found).reverse, cs)
    | _ => none

/-- The members of an object from one member on, behind those found. -/
def members? : (fuel : Nat) → List (String × Json) → List Char → Option (Json × List Char)
  | 0, _, _ => none
  | fuel + 1, found, cs =>
    match skipBlanks cs with
    | '"' :: cs => do
      let (key, cs) ← string? (cs.length + 1) [] cs
      match skipBlanks cs with
      | ':' :: cs =>
        let (value, cs) ← value? fuel cs
        match skipBlanks cs with
        | ',' :: cs => members? fuel (insertMember key value found) cs
        | '\x7d' :: cs => return (.object (insertMember key value found), cs)
        | _ => none
      | _ => none
    | _ => none

end

end Reader

/-- The value that a text stands for. Each value inside another begins behind a character of its own, so
their depth and number are bounded by the length of the text. -/
def parse? (text : String) : Option Json :=
  let cs := text.toList
  match Reader.value? (cs.length + 1) cs with
  | some (value, rest) => if (Reader.skipBlanks rest).isEmpty then some value else none
  | none => none

end Json
end ScriptAnalyzer

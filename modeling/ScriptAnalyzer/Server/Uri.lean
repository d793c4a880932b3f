/-!
References to resources: their syntax, and the files that they mean.
-/

namespace ScriptAnalyzer

/-- Why a text is no reference; with the place of the offending character in bytes. -/
inductive UriError where
  | badEscape (index : Nat)
  | unexpected (index : Nat)
  /-- The address of a host, with the place of its bracket. -/
  | badAddress (index : Nat)
deriving DecidableEq, Repr

def UriError.message : UriError → String
  | badEscape index => "invalid percent-encoded octet at index " ++ toString index
  | unexpected index => "unexpected character at index " ++ toString index
  | badAddress index => "invalid IP literal at index " ++ toString index

namespace Uri

def isSchemeChar (c : Char) : Bool := c.isAlphanum || c = '+' || c = '-' || c = '.'

def isUnreserved (c : Char) : Bool := c.isAlphanum || "-._~".toList.contains c

def isSubDelimiter (c : Char) : Bool := "!$&'()*+,;=".toList.contains c

def isNameChar (c : Char) : Bool := isUnreserved c || isSubDelimiter c

/-- Characters of the user, and of a host with its number. -/
def isHostChar (c : Char) : Bool := isNameChar c || c = ':'

def isPathChar (c : Char) : Bool := isHostChar c || c = '@' || c = '/'

def isQueryChar (c : Char) : Bool := isPathChar c || c = '?'

def isHex (c : Char) : Bool := c.isDigit || ('a' ≤ c && c ≤ 'f') || ('A' ≤ c && c ≤ 'F')

/-- The place behind the allowed characters and escapes, and the text from there on. All characters up to
there are one byte long. -/
def skip (allowed : Char → Bool) (index : Nat) : List Char → Except UriError (Nat × List Char)
  | [] => .ok (index, [])
  | '%' :: a :: b :: cs =>
    if isHex a && isHex b then skip allowed (index + 3) cs else .error (.badEscape index)
  | '%' :: _ => .error (.badEscape index)
  | c :: cs => if allowed c then skip allowed (index + 1) cs else .ok (index, c :: cs)

def checkFragment (index : Nat) : List Char → Except UriError Unit
  | '#' :: cs => do
    match ← skip isQueryChar (index + 1) cs with
    | (_, []) => return
    | (index, _) => throw (.unexpected index)
  | [] => .ok ()
  | _ => .error (.unexpected index)

def checkQuery (index : Nat) : List Char → Except UriError Unit
  | '?' :: cs => do
    let (index, rest) ← skip isQueryChar (index + 1) cs
    checkFragment index rest
  | cs => checkFragment index cs

def checkPath (index : Nat) (cs : List Char) : Except UriError Unit := do
  let (index, rest) ← skip isPathChar index cs
  checkQuery index rest

/-- Reads the path behind a host, which begins with a slash. -/
def checkRootedPath (index : Nat) (cs : List Char) : Except UriError Unit := do
  let (stop, rest) ← skip isPathChar index cs
  if index < stop && cs.head? ≠ some '/' then throw (.unexpected index)
  checkQuery stop rest

/-! Addresses between brackets: eight groups of hexadecimal digits. Two colons stand for groups of zeros,
and four numbers between points for the last two groups. -/

/-- The text behind a number up to 255. -/
def octet? (cs : List Char) : Option (List Char) :=
  match (cs.take 3).takeWhile Char.isDigit with
  | [] => none
  | '0' :: _ => some (cs.drop 1)
  | ds => if ds.foldl (fun n d => 10 * n + (d.toNat - '0'.toNat)) 0 < 256 then some (cs.drop ds.length)
    else none

def point? : List Char → Option (List Char)
  | '.' :: cs => some cs
  | _ => none

def quad? (cs : List Char) : Option (List Char) :=
  octet? cs >>= point? >>= octet? >>= point? >>= octet? >>= point? >>= octet?

/-- Whether there are eight groups, or room for zeros between fewer. -/
def isWhole (count : Nat) (gap : Option Nat) : Bool := if gap.isSome then count < 8 else count = 8

/-- The text behind the groups of an address, when `count` groups are read, and `gap` of them stand before
the two colons. Each group but the first and the one behind the gap has a colon before it. -/
def groups? : (fuel count : Nat) → (gap : Option Nat) → List Char → Option (List Char)
  | 0, _, _, _ => none
  | fuel + 1, count, gap, cs =>
    if count = 8 then if isWhole count gap then some cs else none
    else
      let (colon, rest) := match cs with
        | ':' :: rest => (true, rest)
        | cs => (false, cs)
      let digits := (rest.take 4).takeWhile isHex
      let behind := rest.drop digits.length
      if digits.isEmpty then
        match colon, rest with
        | false, _ => if isWhole count gap then some cs else none
        | true, ':' :: rest => if gap.isSome then none else groups? fuel count (some count) rest
        | true, _ => none
      else if digits.length < 4 && behind.head? = some '.' then
        if 6 < count || colon = (gap = some count) then none
        else if isWhole (count + 2) gap then quad? rest else none
      else if colon = (count = 0 || gap = some count) then none
      else groups? fuel (count + 1) gap behind

/-- The text behind an address, read from behind its bracket. Ten steps are enough: eight groups, the gap,
and the end. -/
def address? (cs : List Char) : Option (List Char) :=
  match groups? 10 0 none cs with
  | some (']' :: rest) => some rest
  | _ => none

def checkHost (index : Nat) (cs : List Char) : Except UriError Unit := do
  let (stop, rest) ← match cs with
    | '[' :: inner =>
      match address? inner with
      | some rest => pure (index + (cs.length - rest.length), rest)
      | none => throw (.badAddress index)
    | cs => skip isNameChar index cs
  match rest with
  | ':' :: rest =>
    let digits := rest.takeWhile Char.isDigit
    checkRootedPath (stop + 1 + digits.length) (rest.drop digits.length)
  | rest => checkRootedPath stop rest

/-- Checks the characters of a host that has no user: only one colon, and only digits behind it. -/
def checkColons (index : Nat) (host : List Char) : Except UriError Unit :=
  let name := host.takeWhile (· ≠ ':')
  let rest := host.drop (name.length + 1)
  if rest.contains ':' then .error (.unexpected (index + name.length))
  else
    let digits := rest.reverse.takeWhile Char.isDigit
    if digits.length < rest.length then
      .error (.unexpected (index + (host.length - digits.length) - 1))
    else .ok ()

/-- Reads the user, if there is one, and the host. -/
def checkAuthority (index : Nat) (cs : List Char) : Except UriError Unit := do
  match ← skip isHostChar index cs with
  | (stop, '@' :: rest) => checkHost (stop + 1) rest
  | (stop, rest) =>
    if stop = index then checkHost index cs
    else
      checkColons index (cs.take (stop - index))
      checkRootedPath stop rest

/-- Reads a reference without a scheme. Its first segment has no colon. -/
def checkRelative (cs : List Char) : Except UriError Unit := do
  match ← skip (fun c => isPathChar c && c ≠ ':' && c ≠ '/') 0 cs with
  | (index, ':' :: _) => throw (.unexpected index)
  | (index, rest) => checkPath index rest

def check (uri : String) : Except UriError Unit :=
  let cs := uri.toList
  let scheme := cs.takeWhile isSchemeChar
  match cs.drop scheme.length with
  | ':' :: rest =>
    if scheme.head?.any Char.isAlpha then
      match rest with
      | '/' :: '/' :: rest => checkAuthority (scheme.length + 3) rest
      | _ => checkPath (scheme.length + 1) rest
    else .error (.unexpected 0)
  | '/' :: '/' :: rest => if scheme.isEmpty then checkAuthority 2 rest else checkRelative cs
  | _ => checkRelative cs

def filePath? (uri : String) : Option String :=
  match uri.toList with
  | 'f' :: 'i' :: 'l' :: 'e' :: ':' :: '/' :: '/' :: path => some (String.ofList path)
  | _ => none

end Uri
end ScriptAnalyzer

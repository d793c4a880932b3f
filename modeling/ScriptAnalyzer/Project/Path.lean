import ScriptAnalyzer.Text.Split

/-!
Unix paths.

A path keeps the text it was written with. Its components leave out repeated and trailing slashes and
every inner `.`; two paths are equal if their components are. The last component of a path is its file
name, and the last dot of a file name that does not start it separates the stem from the extension.
-/

namespace ScriptAnalyzer

structure Path where
  text : String
deriving Repr, Inhabited

namespace Path

inductive Component where
  | root
  | current
  | parent
  | normal (name : List Char)
deriving DecidableEq, Repr

/-- A piece that is no component unless it leads a relative path. -/
def isVoid (piece : List Char) : Bool := piece == [] || piece == ['.']

def Component.ofPiece (piece : List Char) : Component :=
  if piece = ['.', '.'] then .parent else .normal piece

def isAbsolute (p : Path) : Bool := p.text.toList.head? == some '/'

/-- What a path starts with in front of its pieces, and the pieces. -/
def start (p : Path) : List Component × List (List Char) :=
  match p.text.toList with
  | '/' :: cs => ([.root], Text.splitOn '/' cs)
  | cs =>
    match Text.splitOn '/' cs with
    | ['.'] :: pieces => ([.current], pieces)
    | pieces => ([], pieces)

def components (p : Path) : List Component :=
  let (lead, pieces) := p.start
  lead ++ (pieces.filter (!isVoid ·)).map Component.ofPiece

instance : BEq Path := ⟨fun p q => p.components == q.components⟩

/-- Whether the last components of `p` are those of `q`. -/
def endsWith (p q : Path) : Bool := q.components.isSuffixOf p.components

/-- The last component, if it is a name. -/
def fileName? (p : Path) : Option (List Char) :=
  match p.components.getLast? with
  | some (.normal name) => some name
  | _ => none

/-- The parts of a file name in front of and behind its last dot; a dot in the first place separates
nothing. -/
def splitExtension (name : List Char) : List Char × Option (List Char) :=
  let extension := (name.reverse.takeWhile (· ≠ '.')).reverse
  let stem := name.take (name.length - extension.length - 1)
  if stem.isEmpty then (name, none) else (stem, some extension)

def fileStem? (p : Path) : Option (List Char) := p.fileName?.map fun name => (splitExtension name).1

def extension? (p : Path) : Option (List Char) := p.fileName?.bind fun name => (splitExtension name).2

/-- The path `q` as seen from the directory `p`. -/
def join (p q : Path) : Path :=
  if q.isAbsolute then q
  else if p.text.isEmpty || p.text.toList.getLast? == some '/' then ⟨p.text ++ q.text⟩
  else ⟨p.text ++ "/" ++ q.text⟩

def joinPieces (pieces : List (List Char)) : String := String.ofList (['/'].intercalate pieces)

def dropVoidEnd (pieces : List (List Char)) : List (List Char) :=
  (pieces.reverse.dropWhile isVoid).reverse

/-- The path without its last component; the root and the empty path have no parent. -/
def parent? (p : Path) : Option Path :=
  let (lead, pieces) := p.start
  match lead, dropVoidEnd pieces with
  | [], [] => none
  | [.root], [] => none
  | _, [] => some ⟨""⟩
  | lead, pieces =>
    let kept := dropVoidEnd pieces.dropLast
    match lead with
    | [.root] => some ⟨"/" ++ joinPieces kept⟩
    | [] => some ⟨joinPieces kept⟩
    | _ => some ⟨if kept.isEmpty then "." else "./" ++ joinPieces kept⟩

end Path

end ScriptAnalyzer

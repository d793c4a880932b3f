import ScriptAnalyzer.Typing.Check

/-!
What a checked file says about a place: the symbol there, the names in scope, and what a dotted name
means as seen from there.
-/

namespace ScriptAnalyzer

inductive PathMeaning where
  | entity (path : String)
  | value (type : Ty) (symbol : Symbol)
  | method (symbol : Symbol)

namespace CheckResult

/-- The symbol named at `offset`. The shortest name around the offset wins; a name that ends there
comes last. -/
def symbolAt? (r : CheckResult) (offset : Nat) : Option Symbol :=
  let around := r.occurrences.filter fun o => o.span.start ≤ offset && offset < o.span.stop
  ((firstLeast (·.span.size) around).or (r.occurrences.find? (·.span.stop == offset))).map (·.symbol)

/-- The entries without those whose simple name an earlier one has. -/
def hideShadowed : List ScopeEntry → List ScopeEntry
  | [] => []
  | e :: es => e :: (hideShadowed es).filter (·.symbol.simpleName != e.symbol.simpleName)

/-- The bindings that can be named at `offset`, innermost first, one for each name. -/
def scopeAt (r : CheckResult) (offset : Nat) : List ScopeEntry :=
  hideShadowed (r.bindings.filter (·.visible.touches offset))

/-- The entities whose contents need no qualification at `offset`, and the outermost level as the empty
path. -/
def searchPaths (r : CheckResult) (offset : Nat) : List String :=
  (r.regions.filter (·.span.touches offset)).map (·.path) ++ "" :: r.entities.autoOpened

def entityAt? (r : CheckResult) (segments : List String) (offset : Nat) : Option String :=
  ((r.searchPaths offset).map (qualify · (joinPath segments))).find? r.entities.contains

/-- What can be reached through the name of the entity at a path: its static members, and the entities
inside it. -/
def contents (r : CheckResult) (path : String) : List Symbol :=
  let members := (r.entities.find? path).elim [] (·.members)
  (members.filter (·.isStatic)).map (·.symbol path) ++ (r.entities.children path).map (·.symbol)

/-- The symbols that need no qualification at `offset`: bindings first, then the contents of entities. -/
def visibleAt (r : CheckResult) (offset : Nat) : List Symbol :=
  (r.scopeAt offset).map (·.symbol) ++
    (r.searchPaths offset).flatMap fun path =>
      if path.isEmpty then (r.entities.children "").map (·.symbol) else r.contents path

/-- The innermost member access whose name a cursor at `offset` completes. -/
def memberSiteAt? (r : CheckResult) (offset : Nat) : Option MemberSite :=
  firstLeast (·.span.size) (r.members.filter (·.covers offset))

/-- The members of the values of a type. -/
def membersOfType (r : CheckResult) (t : Ty) : List Symbol :=
  (r.entities.membersOfType t).map fun m => m.2.symbol m.1

def membersOfReceiver (r : CheckResult) : Receiver → List Symbol
  | .value t => r.membersOfType t
  | .entity path => r.contents path

/-- The innermost call whose argument list `offset` lies in. -/
def callSiteAt? (r : CheckResult) (offset : Nat) : Option CallSite :=
  firstLeast (·.parens.size)
    (r.calls.filter fun c => c.parens.start < offset && offset ≤ c.parens.stop)

/-- Follows the members with these names, from a value on. A method is not followed further. -/
def follow? (r : CheckResult) : Ty → Symbol → List String → Option PathMeaning
  | t, symbol, [] => some (.value t symbol)
  | t, _, name :: names => do
    let (owner, m) ← r.entities.memberOfType? t name
    match m.kind with
    | .method _ _ => if names.isEmpty then some (.method (m.symbol owner)) else none
    | .property _ next | .field next => r.follow? next (m.symbol owner) names
    | .value scheme _ => r.follow? scheme.type (m.symbol owner) names

/-- The longest part of a dotted name that means an entity, and the segments behind it. -/
def longestEntity? (r : CheckResult) (segments : List String) (offset : Nat) :
    (length : Nat) → Option (String × List String)
  | 0 => none
  | n + 1 =>
    match r.entityAt? (segments.take (n + 1)) offset with
    | some path => some (path, segments.drop (n + 1))
    | none => r.longestEntity? segments offset n

/-- What a dotted name means inside the entity at `path`. -/
def insideEntity? (r : CheckResult) (path : String) : List String → Option PathMeaning
  | [] => some (.entity path)
  | name :: names => do
    let m ← (← r.entities.find? path).staticMember? name
    match m.kind with
    | .method _ _ => if names.isEmpty then some (.method (m.symbol path)) else none
    | .value scheme _ => r.follow? scheme.type (m.symbol path) names
    | .property _ t | .field t => r.follow? t (m.symbol path) names

/-- What a dotted name means as seen from `offset`. -/
def pathMeaning? (r : CheckResult) (segments : List String) (offset : Nat) : Option PathMeaning :=
  match segments with
  | [] => none
  | head :: rest =>
    match (r.scopeAt offset).find? (·.symbol.simpleName == head) with
    | some entry => r.follow? entry.type entry.symbol rest
    | none => do
      let (path, rest) ← r.longestEntity? segments offset segments.length
      r.insideEntity? path rest

/-- The members that can stand behind a dotted name. -/
def membersOfPath (r : CheckResult) (segments : List String) (offset : Nat) : List Symbol :=
  match r.pathMeaning? segments offset with
  | some (.entity path) => r.contents path
  | some (.value t _) => r.membersOfType t
  | some (.method _) | none => []

def resolvePath? (r : CheckResult) (segments : List String) (offset : Nat) : Option Symbol :=
  match r.pathMeaning? segments offset with
  | some (.entity path) => (r.entities.find? path).map (·.symbol)
  | some (.value _ symbol) | some (.method symbol) => some symbol
  | none => none

/-- The overloads of what a dotted name means, if it can be called. -/
def overloadsOfPath? (r : CheckResult) (segments : List String) (offset : Nat) :
    Option (List Signature) :=
  ((r.resolvePath? segments offset).map (·.overloads)).filter (!·.isEmpty)

end CheckResult

end ScriptAnalyzer

import ScriptAnalyzer.Query.Position
import ScriptAnalyzer.Text.Case

/-!
Completions: the names that can stand at a place and start as the text typed there.

A name is offered once, for the first symbol that has it. Members come in front of names in scope, and
each of the two groups is sorted by name without regard to case.
-/

namespace ScriptAnalyzer

structure Completion where
  name : String
  kind : SymbolKind
  detail : String
deriving DecidableEq, Repr

namespace Completion

def ofSymbol (s : Symbol) : Completion :=
  { name := s.simpleName, kind := s.kind
    detail :=
      if s.overloads.length ≤ 1 then s.signature
      else s.signature ++ " (+" ++ toString (s.overloads.length - 1) ++ " overloads)" }

/-- Order by name without regard to case, then with regard to case. -/
def le (a b : Completion) : Bool :=
  let x := Text.toLower a.name.toList
  let y := Text.toLower b.name.toList
  if x = y then ¬ b.name.toList < a.name.toList else x < y

/-- Whether a name starts as `partialName`, without regard to case. -/
def isMatch (partialName : Text) (s : Symbol) : Bool :=
  let name := s.simpleName.toList
  !name.isEmpty && (Text.toLower partialName).isPrefixOf (Text.toLower name)

/-- The symbols of different simple names, the first of each name. -/
def distinct : List Symbol → List Symbol
  | [] => []
  | s :: ss => s :: (distinct ss).filter (·.simpleName != s.simpleName)

/-- The sorted completions of two groups of symbols. -/
def ofGroups (partialName : Text) (members scope : List Symbol) : List Completion :=
  let members := distinct (members.filter (isMatch partialName))
  let scope := (distinct (scope.filter (isMatch partialName))).filter fun s =>
    !members.any (·.simpleName == s.simpleName)
  (members.map ofSymbol).mergeSort le ++ (scope.map ofSymbol).mergeSort le

end Completion

namespace CheckResult

/-- The members of the receiver that the cursor stands behind. -/
def receiverMembers (r : CheckResult) (offset : Nat) : List Symbol :=
  (r.memberSiteAt? offset).elim [] fun site => r.membersOfReceiver site.receiver

/-- The completions at a place behind `path`. Where the line has changed, its places in the checked text
are not trusted. -/
def completions (r : CheckResult) (p : Position) (line : Text) (path : List String)
    (partialName : Text) (stale : Bool) : List Completion :=
  let offset := r.offsetNear p
  let received := if r.isStale p line || stale then [] else r.receiverMembers offset
  if path.isEmpty then Completion.ofGroups partialName received (r.visibleAt offset)
  else
    let members := r.membersOfPath path offset
    Completion.ofGroups partialName (if members.isEmpty then received else members) []

end CheckResult
end ScriptAnalyzer

import ScriptAnalyzer.Query.Position

/-!
The overloads of the call at a place.
-/

namespace ScriptAnalyzer

structure MethodGroup where
  name : String
  overloads : List Signature
deriving DecidableEq, Repr

namespace CheckResult

/-- The overloads of the method with this path, or else of the call around a place. -/
def methodOverloads (r : CheckResult) (p : Position) (path : List String) : MethodGroup :=
  let offset := r.offsetNear p
  match r.overloadsOfPath? path offset with
  | some overloads => ⟨path.getLast?.getD "", overloads⟩
  | none =>
    match r.callSiteAt? offset with
    | some call => ⟨call.name, call.overloads⟩
    | none => ⟨"", []⟩

end CheckResult
end ScriptAnalyzer

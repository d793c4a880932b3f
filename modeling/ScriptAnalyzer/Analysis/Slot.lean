import ScriptAnalyzer.Analysis.FrontEnd

/-!
What is known about one file: its text and the version of it, the last result, and the analysis that is
going on.

Each new text gets a new version, and so does a text that is marked dirty. Results and failures are kept
with the version that they belong to.
-/

namespace ScriptAnalyzer

/-- Where a file is on its way to a result. -/
inductive FileState where
  | unanalyzed
  | parsing
  | checking
  /-- The last result belongs to the last text. -/
  | ready
  | failed
deriving DecidableEq, Repr

def FileState.name : FileState → String
  | unanalyzed => "unanalyzed"
  | parsing => "parsing"
  | checking => "checking"
  | ready => "ready"
  | failed => "failed"

/-- An analysis of a version of a text. No two analyses of a file have the same number. -/
structure Flight where
  id : Nat
  version : Nat
  text : Text
deriving DecidableEq, Repr

structure Slot (ρ : Type) where
  state : FileState := .unanalyzed
  version : Nat := 0
  text : Option Text := none
  published : Option (Nat × ρ) := none
  failure : Option (Nat × Failure) := none
  inFlight : Option Flight := none
  pending : Option (Nat × Text) := none
  /-- The file was closed at this version; results up to it are not published. -/
  closedAt : Nat := 0

namespace Slot

variable {ρ : Type}

/-- Notes that a text is asked for, which is a new version unless the text is the same as before. -/
def observe (s : Slot ρ) (text : Text) : Slot ρ :=
  if s.text = some text ∧ 0 < s.version then s
  else { s with version := s.version + 1, text := some text }

def publishedFor? (s : Slot ρ) (version : Nat) : Option ρ :=
  (s.published.filter (·.1 = version)).map (·.2)

/-- Publishes a result unless a later version has one. -/
def publish (s : Slot ρ) (version : Nat) (result : ρ) : Slot ρ :=
  if s.published.any (version < ·.1) then s else { s with published := some (version, result) }

def start (s : Slot ρ) (f : Flight) : Slot ρ := { s with inFlight := some f, state := .parsing }

def owns (s : Slot ρ) (f : Flight) : Bool := s.inFlight.any (·.id = f.id)

/-- Notes that the analysis going on has read its text. -/
def advance (s : Slot ρ) (f : Flight) : Slot ρ :=
  if s.owns f && s.closedAt < f.version then { s with state := .checking } else s

/-- Notes the outcome of the analysis going on. -/
def settle (s : Slot ρ) (f : Flight) (outcome : Outcome ρ) : Slot ρ :=
  let s := { s with inFlight := none }
  if f.version ≤ s.closedAt then { s with state := .unanalyzed }
  else
    let isCurrent := s.version = f.version
    match outcome with
    | .ok result => { s.publish f.version result with state := if isCurrent then .ready else .unanalyzed }
    | .error failure =>
      { s with failure := some (f.version, failure)
               state := if isCurrent then .failed else .unanalyzed }

/-- The failure of the last text, if its analysis failed and nobody has been told. -/
def untoldFailure? (s : Slot ρ) : Option Failure :=
  if s.state = .failed then (s.failure.filter (·.1 = s.version)).map (·.2) else none

def markDirty (s : Slot ρ) : Slot ρ :=
  { s with version := s.version + 1
           state := if s.state = .ready ∨ s.state = .failed then .unanalyzed else s.state }

/-- Forgets the file. What remains is the analysis going on, so that none is started beside it. -/
def close? (s : Slot ρ) : Option (Slot ρ) :=
  s.inFlight.map fun f => { version := s.version, closedAt := s.version, inFlight := some f }

/-- The text to analyse next, unless a later version has made it stale. -/
def takePending (s : Slot ρ) : Option (Nat × Text) × Slot ρ :=
  (s.pending.filter (·.1 = s.version), { s with pending := none })

end Slot
end ScriptAnalyzer

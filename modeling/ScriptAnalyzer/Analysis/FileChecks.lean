import ScriptAnalyzer.Analysis.Slot

/-!
The analyses of one file, and the callers that wait for them.

The functions here are the steps that happen at once: a call comes in, a caller takes a turn, an analysis
gets further. Between them any other step can happen, so each order of steps is a possible course of
events. At most one analysis of a file goes on at a time. A call for the text that is being analysed waits
for that analysis; a call for another text waits until it is over, and then takes its turn.
-/

namespace ScriptAnalyzer

inductive Progress (ρ : Type) where
  | parsing
  | checking
  /-- The outcome is noted, but the callers have not been told. -/
  | settled (outcome : Outcome ρ)

structure Task (ρ : Type) where
  flight : Flight
  progress : Progress ρ

inductive Waiting (ρ : Type) where
  | ready
  /-- It waits for the outcome of an analysis. -/
  | joined (flight : Nat)
  /-- It waits for the end of an analysis of another text. -/
  | behind (flight : Nat)
  | returned (outcome : Outcome ρ)

/-- A call that asks for the result of a text and waits for it. -/
structure Caller (ρ : Type) where
  id : Nat
  version : Nat
  text : Text
  waiting : Waiting ρ

structure FileChecks (ρ : Type) where
  slot : Option (Slot ρ) := none
  /-- The analyses that go on, the oldest first. -/
  tasks : List (Task ρ) := []
  callers : List (Caller ρ) := []
  flights : Nat := 0
  calls : Nat := 0
  /-- The number of analyses that came to the check of their text. -/
  checksBegun : Nat := 0

/-- The answer to a request that does not wait. -/
inductive Readiness (ρ : Type) where
  | ready (result : ρ)
  /-- An analysis is going on, or was started. -/
  | notReady
  | failed (failure : Failure)

namespace FileChecks

variable {ρ : Type}

/-- The slot, a new one if the file is not known. -/
def theSlot (s : FileChecks ρ) : Slot ρ := s.slot.getD {}

def state (s : FileChecks ρ) : FileState := s.slot.elim .unanalyzed (·.state)

/-- The last result, which may belong to an earlier text. -/
def latest? (s : FileChecks ρ) : Option ρ := (s.slot.bind (·.published)).map (·.2)

def version? (s : FileChecks ρ) : Option Nat := (s.slot.filter (·.text.isSome)).map (·.version)

/-- Starts the analysis of a text, with `slot` as the slot of the file. -/
def launch (s : FileChecks ρ) (slot : Slot ρ) (version : Nat) (text : Text) : FileChecks ρ :=
  let f : Flight := ⟨s.flights, version, text⟩
  { s with slot := some (slot.start f), tasks := s.tasks ++ [⟨f, .parsing⟩], flights := s.flights + 1 }

/-! Calls that wait -/

def request (s : FileChecks ρ) (text : Text) : FileChecks ρ :=
  let slot := s.theSlot.observe text
  { s with slot := some slot, calls := s.calls + 1
           callers := s.callers ++ [⟨s.calls, slot.version, text, .ready⟩] }

def setWaiting (s : FileChecks ρ) (id : Nat) (w : Waiting ρ) : FileChecks ρ :=
  { s with callers := s.callers.map fun c => if c.id = id then { c with waiting := w } else c }

/-- A caller takes its turn: it finds its result, waits for an analysis, or starts one. -/
def turn (s : FileChecks ρ) (c : Caller ρ) : FileChecks ρ :=
  let slot := s.theSlot
  match slot.publishedFor? c.version, slot.inFlight with
  | some result, _ => s.setWaiting c.id (.returned (.ok result))
  | none, some f => s.setWaiting c.id (if f.version = c.version then .joined f.id else .behind f.id)
  | none, none => (s.launch slot c.version c.text).setWaiting c.id (.joined s.flights)

/-- The outcome of a call that has returned. -/
def outcome? (s : FileChecks ρ) (id : Nat) : Option (Outcome ρ) :=
  match s.callers.find? (·.id = id) with
  | some ⟨_, _, _, .returned outcome⟩ => some outcome
  | _ => none

def dropReturned (s : FileChecks ρ) : FileChecks ρ :=
  { s with callers := s.callers.filter fun c =>
      match c.waiting with
      | .returned _ => false
      | _ => true }

/-! Calls that do not wait -/

/-- Answers with the result of a text if there is one, or else sees to it that there will be. A failure
is told once; the request after that starts a new analysis. -/
def poll (s : FileChecks ρ) (text : Text) : Readiness ρ × FileChecks ρ :=
  let slot := s.theSlot.observe text
  match slot.publishedFor? slot.version, slot.untoldFailure?, slot.inFlight with
  | some result, _, _ => (.ready result, { s with slot := some slot })
  | none, some failure, _ => (.failed failure, { s with slot := some { slot with state := .unanalyzed } })
  | none, none, some f =>
    let slot := if f.version = slot.version then slot
      else { slot with pending := some (slot.version, text) }
    (.notReady, { s with slot := some slot })
  | none, none, none => (.notReady, s.launch slot slot.version text)

/-- The next request analyses the file even if its text is the same. -/
def markDirty (s : FileChecks ρ) : FileChecks ρ := { s with slot := s.slot.map Slot.markDirty }

def close (s : FileChecks ρ) : FileChecks ρ := { s with slot := s.slot.bind Slot.close? }

/-! Analyses -/

def setProgress (s : FileChecks ρ) (f : Flight) (p : Progress ρ) : FileChecks ρ :=
  { s with tasks := s.tasks.map fun t => if t.flight.id = f.id then { t with progress := p } else t }

/-- An analysis has read its text, and comes to check it. -/
def advance (s : FileChecks ρ) (f : Flight) : FileChecks ρ :=
  { s.setProgress f .checking with
    slot := s.slot.map (·.advance f), checksBegun := s.checksBegun + 1 }

/-- The outcome of an analysis is noted, and the analysis that waits behind it starts. A closed file that
nobody has asked for since is forgotten. -/
def settle (s : FileChecks ρ) (f : Flight) (outcome : Outcome ρ) : FileChecks ρ :=
  let s := s.setProgress f (.settled outcome)
  match s.slot.filter (·.owns f) with
  | none => s
  | some slot =>
    match (slot.settle f outcome).takePending with
    | (some (version, text), slot) => s.launch slot version text
    | (none, slot) => { s with slot := if slot.text.isNone then none else some slot }

/-- An analysis is over: those who wait for its outcome return, and those behind it go on. -/
def complete (s : FileChecks ρ) (f : Flight) (outcome : Outcome ρ) : FileChecks ρ :=
  { s with
    tasks := s.tasks.filter (·.flight.id ≠ f.id)
    callers := s.callers.map fun c =>
      match c.waiting with
      | .joined id => if id = f.id then { c with waiting := .returned outcome } else c
      | .behind id => if id = f.id then { c with waiting := .ready } else c
      | _ => c }

def work (e : FrontEnd ρ) (s : FileChecks ρ) (t : Task ρ) : FileChecks ρ :=
  match t.progress with
  | .parsing =>
    match e.readFailure? t.flight.text with
    | some failure => s.settle t.flight (.error failure)
    | none => s.advance t.flight
  | .checking => s.settle t.flight (e.check t.flight.text)
  | .settled outcome => s.complete t.flight outcome

end FileChecks
end ScriptAnalyzer

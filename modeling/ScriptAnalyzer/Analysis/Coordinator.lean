import ScriptAnalyzer.Analysis.FileChecks

/-!
The analyses of all files, and the course of events in which everything that can go on does.
-/

namespace ScriptAnalyzer

/-- A stage at which analyses can be held up. -/
inductive Gate where
  | beforeParsing
  | beforeChecking
deriving DecidableEq, Repr

namespace FileChecks

variable {ρ : Type}

def isReady (c : Caller ρ) : Bool :=
  match c.waiting with
  | .ready => true
  | _ => false

def isHeld (gate : Option Gate) (t : Task ρ) : Bool :=
  match t.progress with
  | .parsing => gate = some .beforeParsing
  | .checking => gate = some .beforeChecking
  | .settled _ => false

/-- A step that can happen while analyses are held up at a gate: analyses go first. -/
def step? (e : FrontEnd ρ) (gate : Option Gate) (s : FileChecks ρ) : Option (FileChecks ρ) :=
  ((s.tasks.find? (!isHeld gate ·)).map (s.work e)).or ((s.callers.find? isReady).map s.turn)

def steps (e : FrontEnd ρ) (gate : Option Gate) : Nat → FileChecks ρ → FileChecks ρ
  | 0, s => s
  | n + 1, s => (s.step? e gate).elim s (steps e gate n)

/-- A bound on the steps that can follow. Each caller starts at most one analysis, one can be pending,
each analysis takes three steps, and callers take a turn at most after each of them. -/
def stepBound (s : FileChecks ρ) : Nat :=
  let analyses := s.tasks.length + s.callers.length + 1
  3 * analyses + s.callers.length * (analyses + 1)

def settleDown (e : FrontEnd ρ) (gate : Option Gate) (s : FileChecks ρ) : FileChecks ρ :=
  steps e gate s.stepBound s

end FileChecks

structure Coordinator (ρ : Type) where
  frontEnd : Path → FrontEnd ρ
  files : List (Path × FileChecks ρ) := []

namespace Coordinator

variable {ρ : Type}

def file (c : Coordinator ρ) (path : Path) : FileChecks ρ :=
  ((c.files.find? (·.1 == path)).map (·.2)).getD {}

def setFile (c : Coordinator ρ) (path : Path) (s : FileChecks ρ) : Coordinator ρ :=
  if c.files.any (·.1 == path) then
    { c with files := c.files.map fun f => if f.1 == path then (f.1, s) else f }
  else { c with files := c.files ++ [(path, s)] }

def modify (c : Coordinator ρ) (path : Path) (f : FileChecks ρ → FileChecks ρ) : Coordinator ρ :=
  c.setFile path (f (c.file path))

def poll (c : Coordinator ρ) (path : Path) (text : Text) : Readiness ρ × Coordinator ρ :=
  let (r, s) := (c.file path).poll text
  (r, c.setFile path s)

/-- A call comes in; with its number among the calls for the file. -/
def request (c : Coordinator ρ) (path : Path) (text : Text) : Nat × Coordinator ρ :=
  ((c.file path).calls, c.modify path (·.request text))

/-- All analyses go on until nothing can happen. -/
def settleDown (c : Coordinator ρ) (gate : Option Gate) : Coordinator ρ :=
  { c with files := c.files.map fun f => (f.1, f.2.settleDown (c.frontEnd f.1) gate) }

def size (c : Coordinator ρ) : Nat := c.files.countP (·.2.slot.isSome)

/-- The number of analyses that came to the check of their text. -/
def checksBegun (c : Coordinator ρ) : Nat := c.files.foldr (fun f begun => f.2.checksBegun + begun) 0

def render (c : Coordinator ρ) : String :=
  "Coordinator \x7b files: " ++ toString c.size ++ ", .. \x7d"

end Coordinator
end ScriptAnalyzer

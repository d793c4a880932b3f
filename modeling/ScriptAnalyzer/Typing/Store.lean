import ScriptAnalyzer.Typing.Ty

/-!
The types that variables stand for, and unification.

A store binds some of its variables to types, in which other variables may be bound in turn. `zonk`
replaces the bound variables of a type until none is left. Each number that bounds a recursion is one
that is never used up: as no variable stands for a type that it occurs in, at most as many variables as
the store has are replaced one inside the other.
-/

namespace ScriptAnalyzer

structure TypeStore where
  bindings : Array (Option Ty) := #[]
deriving Repr, Inhabited

namespace TypeStore

def size (s : TypeStore) : Nat := s.bindings.size

def binding? (s : TypeStore) (v : Nat) : Option Ty := s.bindings[v]?.join

def fresh (s : TypeStore) : Ty × TypeStore := (.var s.size, { s with bindings := s.bindings.push none })

def extend (s : TypeStore) : Nat → TypeStore
  | 0 => s
  | n + 1 => s.fresh.2.extend n

def bind (s : TypeStore) (v : Nat) (t : Ty) : TypeStore :=
  { s with bindings := s.bindings.setIfInBounds v (some t) }

def shallowWith (s : TypeStore) : Nat → Ty → Ty
  | n + 1, .var v => (s.binding? v).elim (.var v) (s.shallowWith n)
  | _, t => t

/-- What a variable stands for, if it is bound; any other type is itself. -/
def shallow (s : TypeStore) (t : Ty) : Ty := s.shallowWith s.size t

def zonkWith (s : TypeStore) : Nat → Ty → Ty
  | 0, t => t
  | n + 1, t => t.subst fun v => (s.binding? v).elim (.var v) (s.zonkWith n)

def zonk (s : TypeStore) (t : Ty) : Ty := s.zonkWith s.size t

/-- Whether the variable is left in a type after all replacements. -/
def occurs (s : TypeStore) (v : Nat) (t : Ty) : Bool := (s.zonk t).vars.contains v

/-- Does `step` for pairs of types from left to right, as long as it succeeds. -/
def forAll₂ (step : Ty → Ty → TypeStore → Bool × TypeStore) :
    List Ty → List Ty → TypeStore → Bool × TypeStore
  | a :: as, b :: bs, s =>
    match step a b s with
    | (true, s) => forAll₂ step as bs s
    | (false, s) => (false, s)
  | _, _, s => (true, s)

/-- Binds a variable, unless it occurs in the type. -/
def bindNew (s : TypeStore) (v : Nat) (t : Ty) : Bool × TypeStore :=
  if s.occurs v t then (false, s) else (true, s.bind v t)

/-- Makes two types equal that are no bound variables, and their parts by `step`. -/
def unifyHeads (step : Ty → Ty → TypeStore → Bool × TypeStore) (s : TypeStore) :
    Ty → Ty → Bool × TypeStore
  | .error, _ => (true, s)
  | _, .error => (true, s)
  | .var v, .var w => if v = w then (true, s) else s.bindNew v (.var w)
  | .var v, t => s.bindNew v t
  | t, .var v => s.bindNew v t
  | .named m as, .named m' bs =>
    if m = m' && as.length = bs.length then forAll₂ step as bs s else (false, s)
  | .function p r, .function p' r' => forAll₂ step [p, r] [p', r'] s
  | .tuple as, .tuple bs =>
    if as.length = bs.length then forAll₂ step as bs s else (false, s)
  | _, _ => (false, s)

def unifyWith : Nat → Ty → Ty → TypeStore → Bool × TypeStore
  | 0, _, _, s => (false, s)
  | n + 1, a, b, s => s.unifyHeads (unifyWith n) (s.shallow a) (s.shallow b)

def depth (s : TypeStore) : Nat := s.bindings.foldl (fun d t? => max d (t?.elim 0 Ty.depth)) 0

/-- A bound on the depth of a type, and of its parts, under all bindings that unification can add. -/
def depthBound (s : TypeStore) (a b : Ty) : Nat := (s.size + 1) * max s.depth (max a.depth b.depth)

/-- Makes two types equal. If they differ, the bindings made up to the difference remain. -/
def unify (s : TypeStore) (a b : Ty) : Bool × TypeStore := unifyWith (s.depthBound a b + 1) a b s

def unifies (s : TypeStore) (a b : Ty) : Bool := (s.unify a b).1

/-- Whether binding the variable, if it does not occur in the type, writes inside the store. -/
def bindsInside (s : TypeStore) (v : Nat) (t : Ty) : Bool := s.occurs v t || v < s.size

/-- Whether `inside` holds of pairs of types from left to right, as long as `step` succeeds. -/
def allInside (step : Ty → Ty → TypeStore → Bool × TypeStore) (inside : Ty → Ty → TypeStore → Bool) :
    List Ty → List Ty → TypeStore → Bool
  | a :: as, b :: bs, s =>
    inside a b s && (!(step a b s).1 || allInside step inside as bs (step a b s).2)
  | _, _, _ => true

def headsInside (step : Ty → Ty → TypeStore → Bool × TypeStore)
    (inside : Ty → Ty → TypeStore → Bool) (s : TypeStore) : Ty → Ty → Bool
  | .error, _ => true
  | _, .error => true
  | .var v, .var w => v = w || s.bindsInside v (.var w)
  | .var v, t => s.bindsInside v t
  | t, .var v => s.bindsInside v t
  | .named m as, .named m' bs =>
    !(m = m' && as.length = bs.length) || allInside step inside as bs s
  | .function p r, .function p' r' => allInside step inside [p, r] [p', r'] s
  | .tuple as, .tuple bs => !(as.length = bs.length) || allInside step inside as bs s
  | _, _ => true

def unifyInsideWith : Nat → Ty → Ty → TypeStore → Bool
  | 0, _, _, _ => true
  | n + 1, a, b, s =>
    s.headsInside (unifyWith n) (unifyInsideWith n) (s.shallow a) (s.shallow b)

/-- Whether the variables of the type are all variables of the store. -/
def allocates (s : TypeStore) (t : Ty) : Bool := t.vars.all (· < s.size)

/-- Whether the variables of two types, and those that are bound to make them equal, are all variables
of the store. -/
def unifyInside (s : TypeStore) (a b : Ty) : Bool :=
  s.allocates a && s.allocates b && unifyInsideWith (s.depthBound a b + 1) a b s

/-- The scheme's type with new variables for the quantified ones. -/
def instantiate (s : TypeStore) (scheme : Scheme) : Ty × TypeStore :=
  let image (v : Nat) : Ty := (scheme.vars.idxOf? v).elim (.var v) fun k => .var (s.size + k)
  (scheme.type.subst image, s.extend scheme.vars.length)

def generalize (s : TypeStore) (t : Ty) : Scheme := .poly (s.zonk t)

end TypeStore

end ScriptAnalyzer

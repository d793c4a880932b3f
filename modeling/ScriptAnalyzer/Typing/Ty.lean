import ScriptAnalyzer.Symbol

/-!
Types: variables, named types with their arguments, functions, tuples, and the type of what is in
error.

A function on types comes with its companion on lists of types. `freeVars` lists each variable once,
in the order of its first occurrence from left to right; the written form of a type names its variables
in this order.
-/

namespace ScriptAnalyzer

inductive Ty where
  | var (v : Nat)
  /-- A type by its name or qualified path, with its arguments. -/
  | named (name : String) (args : List Ty)
  | function (param ret : Ty)
  | tuple (items : List Ty)
  /-- The type of an expression that an error was reported for. -/
  | error
deriving Repr, Inhabited

namespace Ty

mutual

def same : Ty → Ty → Bool
  | var v, var w => v == w
  | named m as, named n bs => m == n && sameAll as bs
  | function p r, function q s => same p q && same r s
  | tuple as, tuple bs => sameAll as bs
  | error, error => true
  | _, _ => false

def sameAll : List Ty → List Ty → Bool
  | [], [] => true
  | a :: as, b :: bs => same a b && sameAll as bs
  | _, _ => false

end

mutual

theorem same_self : ∀ t : Ty, same t t = true
  | var _ => by simp [same]
  | named _ args => by simp [same, sameAll_self args]
  | function p r => by simp [same, same_self p, same_self r]
  | tuple items => by simp [same, sameAll_self items]
  | error => rfl

theorem sameAll_self : ∀ ts : List Ty, sameAll ts ts = true
  | [] => rfl
  | t :: ts => by simp [sameAll, same_self t, sameAll_self ts]

end

mutual

theorem eq_of_same : ∀ {a b : Ty}, same a b = true → a = b
  | var _, b, h => by
    cases b <;> simp [same] at h
    rw [h]
  | named _ as, b, h => by
    cases b <;> simp [same] at h
    rw [h.1, eq_of_sameAll h.2]
  | function p r, b, h => by
    cases b <;> simp [same] at h
    rw [eq_of_same h.1, eq_of_same h.2]
  | tuple as, b, h => by
    cases b <;> simp [same] at h
    rw [eq_of_sameAll h]
  | error, b, h => by
    cases b <;> simp [same] at h
    rfl

theorem eq_of_sameAll : ∀ {as bs : List Ty}, sameAll as bs = true → as = bs
  | [], bs, h => by
    cases bs <;> simp [sameAll] at h
    rfl
  | a :: as, bs, h => by
    cases bs <;> simp [sameAll] at h
    rw [eq_of_same h.1, eq_of_sameAll h.2]

end

instance : DecidableEq Ty := fun a b =>
  decidable_of_iff (same a b = true) ⟨eq_of_same, fun h => h ▸ same_self a⟩

def atom (name : String) : Ty := named name []

def int : Ty := atom "int"

def float : Ty := atom "float"

def string : Ty := atom "string"

def bool : Ty := atom "bool"

def char : Ty := atom "char"

def unit : Ty := atom "unit"

def obj : Ty := atom "obj"

def list (element : Ty) : Ty := named "list" [element]

def array (element : Ty) : Ty := named "array" [element]

/-- The function that takes its parameters one after the other. -/
def curried (params : List Ty) (ret : Ty) : Ty := params.foldr function ret

/-- The parameters of a curried function, outermost first. -/
def curriedParams : Ty → List Ty
  | function param ret => param :: curriedParams ret
  | _ => []

def isError : Ty → Bool
  | error => true
  | _ => false

/-- Whether this is the named type `expected` without arguments. -/
def isAtom (t : Ty) (expected : String) : Bool :=
  match t with
  | named name [] => name == expected
  | _ => false

def arrayElement? : Ty → Option Ty
  | named "array" [element] => some element
  | _ => none

mutual

/-- The variables from left to right, with repetitions. -/
def vars : Ty → List Nat
  | var v => [v]
  | named _ args => varsOfAll args
  | function param ret => vars param ++ vars ret
  | tuple items => varsOfAll items
  | error => []

def varsOfAll : List Ty → List Nat
  | [] => []
  | t :: ts => vars t ++ varsOfAll ts

end

/-- The variables in the order of their first occurrence. -/
def freeVars (t : Ty) : List Nat := t.vars.eraseDups

mutual

def subst (f : Nat → Ty) : Ty → Ty
  | var v => f v
  | named name args => named name (substAll f args)
  | function param ret => function (subst f param) (subst f ret)
  | tuple items => tuple (substAll f items)
  | error => error

def substAll (f : Nat → Ty) : List Ty → List Ty
  | [] => []
  | t :: ts => subst f t :: substAll f ts

end

mutual

/-- The greatest number of constructors around each other. -/
def depth : Ty → Nat
  | var _ | error => 1
  | named _ args => depthOfAll args + 1
  | function param ret => max (depth param) (depth ret) + 1
  | tuple items => depthOfAll items + 1

def depthOfAll : List Ty → Nat
  | [] => 0
  | t :: ts => max (depth t) (depthOfAll ts)

end

/-- The written name of the variable with this index. -/
def varName (index : Nat) : Text :=
  let letter := Char.ofNat ('a'.toNat + index % 26)
  '\'' :: letter :: (if index < 26 then [] else (toString (index / 26)).toList)

/-- How tightly the place of a type binds. -/
inductive Place where
  | outermost
  | parameter
  | item
  | argument
deriving DecidableEq

def parenthesize (needed : Bool) (text : Text) : Text :=
  if needed then '(' :: text ++ [')'] else text

mutual

/-- Writes a type whose variables are named by their places in `names`. Named types show the last
segment of their path. -/
def write (names : List Nat) : Place → Ty → Text
  | _, var v => varName (names.idxOf v)
  | _, error => ['?']
  | _, named name [] => lastSegment name.toList
  | _, named name [arg] =>
    if name = "array" then write names .argument arg ++ ['[', ']']
    else write names .argument arg ++ ' ' :: lastSegment name.toList
  | _, named name (arg :: args) =>
    lastSegment name.toList ++ '<' :: write names .outermost arg ++
      writeAll names .outermost [',', ' '] args ++ ['>']
  | place, function param ret =>
    parenthesize (place != .outermost)
      (write names .parameter param ++ [' ', '-', '>', ' '] ++ write names .outermost ret)
  | place, tuple [] => parenthesize (place == .item || place == .argument) []
  | place, tuple (item :: items) =>
    parenthesize (place == .item || place == .argument)
      (write names .item item ++ writeAll names .item [' ', '*', ' '] items)

/-- Writes types with `separator` in front of each. -/
def writeAll (names : List Nat) (place : Place) (separator : Text) : List Ty → Text
  | [] => []
  | t :: ts => separator ++ write names place t ++ writeAll names place separator ts

end

def text (t : Ty) : Text := write t.freeVars .outermost t

def render (t : Ty) : String := String.ofList t.text

end Ty

/-- A type in which some variables stand for any type. -/
structure Scheme where
  vars : List Nat
  type : Ty
deriving DecidableEq, Repr, Inhabited

namespace Scheme

/-- The scheme that has only the type itself as an instance. -/
def mono (type : Ty) : Scheme := ⟨[], type⟩

/-- The scheme over every variable of the type. -/
def poly (type : Ty) : Scheme := ⟨type.freeVars, type⟩

end Scheme

end ScriptAnalyzer

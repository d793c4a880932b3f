import ScriptAnalyzer.Typing.Format
import ScriptAnalyzer.Typing.Pattern

/-!
Calls: what a name in front of arguments stands for, and the type of its application.

A method is called with the first of its overloads that accepts the arguments. Each overload is tried
on the types as they stood before; the bindings of the one that is chosen remain.
-/

namespace ScriptAnalyzer

namespace TypeStore

/-- Passes an argument to a parameter. An object may be anything. -/
def pass (s : TypeStore) (param arg : Ty) : Option TypeStore :=
  if param.isAtom "obj" then some s
  else match s.unify param arg with
    | (true, s) => some s
    | (false, _) => none

/-- Passes arguments to fixed parameters, and those behind them one by one to the elements of a
variadic parameter. If `direct`, a variadic parameter also takes its array itself. -/
def passAll (variadic? : Option Ty) (direct : Bool) : List Ty → List Ty → TypeStore → Option TypeStore
  | _, [], s => some s
  | param :: params, arg :: args, s =>
    (s.pass param arg).bind (passAll variadic? direct params args)
  | [], arg :: args, s =>
    match variadic? with
    | none => none
    | some array =>
      let param := if direct && s.unifies array arg then array else array.arrayElement?.getD array
      (s.pass param arg).bind (passAll variadic? direct [] args)

/-- Whether passing an argument to a parameter binds variables of the store only. -/
def passInside (s : TypeStore) (param arg : Ty) : Bool := param.isAtom "obj" || s.unifyInside param arg

def passAllInside (variadic? : Option Ty) (direct : Bool) : List Ty → List Ty → TypeStore → Bool
  | _, [], _ => true
  | param :: params, arg :: args, s =>
    s.passInside param arg && (s.pass param arg).all (passAllInside variadic? direct params args)
  | [], arg :: args, s =>
    match variadic? with
    | none => true
    | some array =>
      let param := if direct && s.unifies array arg then array else array.arrayElement?.getD array
      (!direct || s.unifyInside array arg) && s.passInside param arg &&
        (s.pass param arg).all (passAllInside variadic? direct [] args)

end TypeStore

namespace Overload

/-- The store in which the overload accepts arguments of these types, if it does. -/
def accepts (o : Overload) (args : List Ty) (s : TypeStore) : Option TypeStore :=
  if o.acceptsCount args.length then
    s.passAll (o.variadic?.map (·.type)) (args.length == o.params.length)
      ((o.params.takeWhile (!·.variadic)).map (·.type)) args
  else none

/-- The first overload that accepts the arguments, as the type that it returns and the store. -/
def select (args : List Ty) (s : TypeStore) : List Overload → Option (Ty × TypeStore)
  | [] => none
  | o :: os =>
    match o.accepts args s with
    | some s => some (o.returnType, s)
    | none => select args s os

/-- Whether trying the overload on arguments of these types binds variables of the store only. -/
def acceptsInside (o : Overload) (args : List Ty) (s : TypeStore) : Bool :=
  !o.acceptsCount args.length ||
    s.passAllInside (o.variadic?.map (·.type)) (args.length == o.params.length)
      ((o.params.takeWhile (!·.variadic)).map (·.type)) args

def selectInside (args : List Ty) (s : TypeStore) : List Overload → Bool
  | [] => true
  | o :: os => o.acceptsInside args s && ((o.accepts args s).isSome || selectInside args s os)

def commonReturn? : List Overload → Option Ty
  | [] => none
  | o :: os => if os.all (·.returnType == o.returnType) then some o.returnType else none

end Overload

namespace Checker

/-- The type of a callee that is not called. -/
def calleeType (span : Span) : Callee → Checker Ty
  | .value t _ => return t
  | .method _ [o] => return o.functionType
  | .method name _ => do
    report (.ambiguousMethod name) span
    return .error

/-- The type of a call of a method. If no overload accepts the arguments, what all of them return is
still known. -/
def callMethod (name : String) (overloads : List Overload) (args : List Ty) (span : Span) :
    Checker Ty := do
  modify fun s => s.demand .variable (Overload.selectInside args s.store overloads)
  let s ← get
  match Overload.select args s.store overloads with
  | some (t, store) =>
    set { s with store }
    return t
  | none =>
    report (.noOverload name (args.map s.store.zonk)) span
    return (Overload.commonReturn? overloads).getD .error

def notAFunction (span : Span) : Checker Ty := do
  report .notAFunction span
  return .error

/-- The type of a function applied to an argument of a known type. -/
def applyType (function arg : Ty) (functionSpan argSpan : Span) : Checker Ty := do
  match ← shallow function with
  | .function param ret =>
    expect param arg argSpan
    return ret
  | .error => return .error
  | .var _ =>
    let ret ← fresh
    expect function (.function arg ret) functionSpan
    return ret
  | _ => notAFunction functionSpan

/-- The type of a function applied to an argument. `arg` checks the argument against an expected type,
or finds its type. What is expected of the result may help to check the argument. -/
def apply (function : Ty) (functionSpan : Span) (arg : Option Ty → Checker Ty) (argSpan : Span)
    (expected : Option Ty) : Checker Ty := do
  match ← shallow function with
  | .function param ret =>
    if let some expected := expected then
      if ← unifies expected ret then
        let _ ← unify expected ret
    let _ ← arg (some param)
    return ret
  | .error =>
    let _ ← arg none
    return .error
  | .var _ =>
    let t ← arg none
    applyType function t functionSpan argSpan
  | _ =>
    let _ ← arg none
    notAFunction functionSpan

/-- What a member of the entity at `owner` stands for. -/
def memberCallee (owner : String) (m : Member) : Checker Callee := do
  match m.kind with
  | .value scheme _ => return .value (← instantiate scheme) (m.symbol owner).overloads
  | .property _ t | .field t => return .value t
  | .method _ overloads => return .method m.name overloads

/-- What an entity in the place of a value stands for: its constructors. -/
def entityCallee (path : String) (name : Ident) : Checker Callee := do
  match (← get).entities.find? path with
  | none => return .value .error
  | some entity =>
    mention name.span (.fixed entity.symbol)
    if entity.constructors.isEmpty then
      report (.notAValue name.text path entity.kind) name.span
      return .value .error
    else return .method entity.name entity.constructors

def binderCallee (index : Nat) (span : Span) : Checker Callee := do
  modify fun s => { s with binders := s.binders.modify index fun b => { b with used := true } }
  mention span (.binder index)
  match ← binderAt? index with
  | none => return .value .error
  | some binder =>
    let t ← zonk binder.scheme.type
    let signatures := (bindingSignature? t binder.params).toList
    return .value (← instantiate binder.scheme) signatures

def nameCallee (name : Ident) : Checker Callee := do
  readScope
  match (← get).meaning? name.text with
  | some (.binder index) => binderCallee index name.span
  | some (.member owner m) =>
    mention name.span (.fixed (m.symbol owner))
    memberCallee owner m
  | some (.entity path) => entityCallee path name
  | none =>
    report (.undefinedValue name.text) name.span
    return .value .error

/-- What the member `name?` of the entity at `path` stands for. -/
def entityMember (span dot : Span) (path : String) (name? : Option Ident) : Checker Callee := do
  recordMember { dot, name := name?.map (·.span), span, receiver := .entity path }
  match name? with
  | none => return .value .error
  | some name =>
    let entities := (← get).entities
    let inner := path ++ "." ++ name.text
    if entities.contains inner then entityCallee inner name
    else match (entities.find? path).bind (·.staticMember? name.text) with
      | some m =>
        mention name.span (.fixed (m.symbol path))
        memberCallee path m
      | none =>
        report (.undefinedIn name.text path) name.span
        return .value .error

/-- What the member `name?` of a value stands for. -/
def valueMember (span dot : Span) (receiver : Ty) (name? : Option Ident) : Checker Callee := do
  let receiver ← shallow receiver
  recordMember { dot, name := name?.map (·.span), span, receiver := .value receiver }
  match name?, receiver with
  | none, _ => return .value .error
  | some _, .error => return .value .error
  | some _, .var _ =>
    report .indeterminateLookup span
    return .value .error
  | some name, t =>
    match (← get).entities.memberOfType? t name.text with
    | some (owner, m) =>
      mention name.span (.fixed (m.symbol owner))
      memberCallee owner m
    | none =>
      report (.undefinedMember (← zonk t) name.text) name.span
      return .value .error

/-- The type that a format function has behind its format string. -/
def formatType (function : String) (placeholders : List Format.Conversion) : Checker Ty := do
  let args ← placeholders.mapM fun
    | .typed t => pure t
    | _ => fresh
  let ret ← match function with
    | "sprintf" => pure .string
    | "failwithf" => fresh
    | _ => pure .unit
  return .curried args ret

/-- The place of a bad placeholder of a string literal: two bytes behind the opening quote. -/
def placeholderSpan (literal : Span) (offset : Nat) : Span :=
  let start := min (literal.start + 1 + offset) literal.stop
  ⟨start, min (start + 2) literal.stop⟩

/-- The type of a format function applied to a string literal; `none` if this is no such application.
The name of the function is not bound, and is found as a member. -/
def formatApplication? (function arg : Expr) : Checker (Option Ty) := do
  match function, arg with
  | .ident name, .literal span (.string format) =>
    if !Format.functions.contains name.text then return none
    readScope
    match (← get).meaning? name.text with
    | some (.member owner m) =>
      mention name.span (.fixed (m.symbol owner))
      match Format.arguments format.toList with
      | .ok placeholders => return some (← formatType name.text placeholders)
      | .error bad =>
        let cause := match bad.conversion with
          | none => .incompletePlaceholder
          | some c => .unknownPlaceholder c
        report cause (placeholderSpan span bad.offset)
        return some .error
    | _ => return none
  | _, _ => return none

end Checker
end ScriptAnalyzer

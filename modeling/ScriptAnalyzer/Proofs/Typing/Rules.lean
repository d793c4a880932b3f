import ScriptAnalyzer.Typing.Expr
import ScriptAnalyzer.Proofs.Syntax.Marking

/-!
The typing rules of the core language: literals, bound names, functions and their application, local
bindings, conditionals, sequences, tuples, lists, annotations, negation and the binary operators. Local
bindings have one type; only the schemes of the environment have several instances.
-/

namespace ScriptAnalyzer

/-- The names in scope with their schemes, the innermost first. -/
abbrev Environment := List (String × Scheme)

/-- What the names in annotations stand for. -/
structure TypeNames where
  typeVar : String → Ty
  abbreviation? : String → Option Ty
  /-- The path of the type that a dotted name refers to. -/
  entity? : List String → Option String

/-- Names that no declaration can give another meaning. -/
def LongIdent.IsBuiltIn (name : LongIdent) : Prop :=
  name.tail = [] ∧ (name.head.text ∈ atomicTypes ∨ name.head.text = "list")

def Scheme.HasInstance (scheme : Scheme) (t : Ty) : Prop :=
  ∃ f : Nat → Ty, (∀ v, v ∉ scheme.vars → f v = .var v) ∧ t = scheme.type.subst f

mutual

inductive Denotes (names : TypeNames) : TypeExpr → Ty → Prop where
  | atomic {span : Span} {name : Ident} (h : name.text ∈ atomicTypes) :
      Denotes names (.named span ⟨name, []⟩) (.atom name.text)
  /-- Without an argument the element type is left open. -/
  | anyList {span nameSpan : Span} (element : Ty) :
      Denotes names (.named span ⟨⟨"list", nameSpan⟩, []⟩) (.list element)
  | abbreviation {span : Span} {name : LongIdent} {t : Ty} (hname : ¬name.IsBuiltIn)
      (h : names.abbreviation? name.render = some t) : Denotes names (.named span name) t
  | entity {span : Span} {name : LongIdent} {path : String} (hname : ¬name.IsBuiltIn)
      (hnone : names.abbreviation? name.render = none)
      (h : names.entity? name.segments = some path) :
      Denotes names (.named span name) (.ofEntityPath path)
  | var {span : Span} {name : Ident} : Denotes names (.var span name) (names.typeVar name.text)
  | list {span : Span} {argument : TypeExpr} {ctor : LongIdent} {t : Ty}
      (h : ctor.segments = ["list"]) (ht : Denotes names argument t) :
      Denotes names (.app span argument ctor) (.list t)
  | arrayOf {span : Span} {argument : TypeExpr} {ctor : LongIdent} {t : Ty}
      (h : ctor.segments = ["array"]) (ht : Denotes names argument t) :
      Denotes names (.app span argument ctor) (.array t)
  | array {span : Span} {element : TypeExpr} {t : Ty} (h : Denotes names element t) :
      Denotes names (.array span element) (.array t)
  | function {span : Span} {domain codomain : TypeExpr} {param ret : Ty}
      (hparam : Denotes names domain param) (hret : Denotes names codomain ret) :
      Denotes names (.function span domain codomain) (.function param ret)
  | tuple {span : Span} {items : List TypeExpr} {ts : List Ty} (h : DenoteAll names items ts) :
      Denotes names (.tuple span items) (.tuple ts)

inductive DenoteAll (names : TypeNames) : List TypeExpr → List Ty → Prop where
  | nil : DenoteAll names [] []
  | cons {item : TypeExpr} {items : List TypeExpr} {t : Ty} {ts : List Ty}
      (h : Denotes names item t) (hrest : DenoteAll names items ts) :
      DenoteAll names (item :: items) (t :: ts)

end

mutual

/-- The pattern takes values of the type apart, and binds the names of the environment to them, the
outermost first. -/
inductive HasPattern (names : TypeNames) : Pattern → Ty → Environment → Prop where
  | named {span : Span} {name : Ident} {t : Ty} :
      HasPattern names (.named span name) t [(name.text, .mono t)]
  | wildcard {span : Span} {t : Ty} : HasPattern names (.wildcard span) t []
  | unit {span : Span} : HasPattern names (.unit span) .unit []
  | tuple {span : Span} {items : List Pattern} {ts : List Ty} {Γ : Environment}
      (h : HasPatterns names items ts Γ) : HasPattern names (.tuple span items) (.tuple ts) Γ
  | typed {span : Span} {inner : Pattern} {written : TypeExpr} {t : Ty} {Γ : Environment}
      (h : Denotes names written t) (hinner : HasPattern names inner t Γ) :
      HasPattern names (.typed span inner written) t Γ

inductive HasPatterns (names : TypeNames) : List Pattern → List Ty → Environment → Prop where
  | nil : HasPatterns names [] [] []
  | cons {p : Pattern} {ps : List Pattern} {t : Ty} {ts : List Ty} {Γ Γ' : Environment}
      (h : HasPattern names p t Γ) (hrest : HasPatterns names ps ts Γ') :
      HasPatterns names (p :: ps) (t :: ts) (Γ ++ Γ')

end

def BinaryOp.SupportsArithmetic (op : BinaryOp) (t : Ty) : Prop :=
  t = .int ∨ t = .float ∨ op = .add ∧ t = .string

def BinaryOp.isArithmetic : BinaryOp → Bool
  | add | sub | mul | div | rem => true
  | _ => false

theorem BinaryOp.kinds (op : BinaryOp) : op = .pipe ∨ (op = .or ∨ op = .and) ∨ op = .concat ∨
    op.isComparison = true ∨ op.isArithmetic = true := by
  cases op <;> simp [isComparison, isArithmetic]

mutual

inductive HasType (names : TypeNames) : Environment → Expr → Ty → Prop where
  | literal {Γ : Environment} {span : Span} {l : Literal} : HasType names Γ (.literal span l) l.type
  | ident {Γ : Environment} {name : Ident} {scheme : Scheme} {t : Ty}
      (h : Γ.lookup name.text = some scheme) (ht : scheme.HasInstance t) :
      HasType names Γ (.ident name) t
  | app {Γ : Environment} {span : Span} {function arg : Expr} {param ret : Ty}
      (hfunction : HasType names Γ function (.function param ret))
      (harg : HasType names Γ arg param) : HasType names Γ (.app span function arg) ret
  | neg {Γ : Environment} {span : Span} {operand : Expr} {t : Ty} (h : HasType names Γ operand t)
      (ht : BinaryOp.sub.SupportsArithmetic t) : HasType names Γ (.neg span operand) t
  | pipe {Γ : Environment} {span opSpan : Span} {arg function : Expr} {param ret : Ty}
      (harg : HasType names Γ arg param)
      (hfunction : HasType names Γ function (.function param ret)) :
      HasType names Γ (.binary span .pipe opSpan arg function) ret
  | logical {Γ : Environment} {span opSpan : Span} {op : BinaryOp} {lhs rhs : Expr}
      (hop : op = .or ∨ op = .and) (hlhs : HasType names Γ lhs .bool)
      (hrhs : HasType names Γ rhs .bool) : HasType names Γ (.binary span op opSpan lhs rhs) .bool
  | concat {Γ : Environment} {span opSpan : Span} {lhs rhs : Expr}
      (hlhs : HasType names Γ lhs .string) (hrhs : HasType names Γ rhs .string) :
      HasType names Γ (.binary span .concat opSpan lhs rhs) .string
  | comparison {Γ : Environment} {span opSpan : Span} {op : BinaryOp} {lhs rhs : Expr} {t : Ty}
      (hop : op.isComparison = true) (hlhs : HasType names Γ lhs t) (hrhs : HasType names Γ rhs t) :
      HasType names Γ (.binary span op opSpan lhs rhs) .bool
  | arithmetic {Γ : Environment} {span opSpan : Span} {op : BinaryOp} {lhs rhs : Expr} {t : Ty}
      (hop : op.isArithmetic = true) (ht : op.SupportsArithmetic t)
      (hlhs : HasType names Γ lhs t) (hrhs : HasType names Γ rhs t) :
      HasType names Γ (.binary span op opSpan lhs rhs) t
  | conditional {Γ : Environment} {span : Span} {condition thenBranch elseBranch : Expr} {t : Ty}
      (hcondition : HasType names Γ condition .bool) (hthen : HasType names Γ thenBranch t)
      (helse : HasType names Γ elseBranch t) :
      HasType names Γ (.conditional span condition thenBranch (some elseBranch)) t
  | action {Γ : Environment} {span : Span} {condition thenBranch : Expr}
      (hcondition : HasType names Γ condition .bool) (hthen : HasType names Γ thenBranch .unit) :
      HasType names Γ (.conditional span condition thenBranch none) .unit
  | lambda {Γ Γ' : Environment} {span : Span} {params : List Pattern} {body : Expr} {ts : List Ty}
      {ret : Ty} (hparams : HasPatterns names params ts Γ')
      (hbody : HasType names (Γ'.reverse ++ Γ) body ret) :
      HasType names Γ (.lambda span params body) (.curried ts ret)
  | letValue {Γ Γ' : Environment} {span : Span} {head : LetHead} {value body : Expr} {t ret : Ty}
      (hhead : head.params = []) (hwritten : ∀ written ∈ head.returnType, Denotes names written t)
      (hpattern : HasPattern names head.pattern t Γ')
      (hvalue : HasType names (if head.isRec then Γ'.reverse ++ Γ else Γ) value t)
      (hbody : HasType names (Γ'.reverse ++ Γ) body ret) :
      HasType names Γ (.letIn span head value body) ret
  | letFunction {Γ Γ' : Environment} {span nameSpan : Span} {head : LetHead} {name : Ident}
      {value body : Expr} {ts : List Ty} {result ret : Ty} (hhead : head.params ≠ [])
      (hname : head.pattern = .named nameSpan name)
      (hwritten : ∀ written ∈ head.returnType, Denotes names written result)
      (hparams : HasPatterns names head.params ts Γ')
      (hvalue : HasType names
        (Γ'.reverse ++
          if head.isRec then (name.text, .mono (.curried ts result)) :: Γ else Γ) value result)
      (hbody : HasType names ((name.text, .mono (.curried ts result)) :: Γ) body ret) :
      HasType names Γ (.letIn span head value body) ret
  | sequential {Γ : Environment} {span : Span} {first second : Expr} {t ret : Ty}
      (hfirst : HasType names Γ first t) (hsecond : HasType names Γ second ret) :
      HasType names Γ (.sequential span first second) ret
  | tuple {Γ : Environment} {span : Span} {items : List Expr} {ts : List Ty}
      (h : HaveTypes names Γ items ts) : HasType names Γ (.tuple span items) (.tuple ts)
  | list {Γ : Environment} {span : Span} {items : List Expr} {element : Ty}
      (h : HaveTypes names Γ items (items.map fun _ => element)) :
      HasType names Γ (.list span items) (.list element)
  | paren {Γ : Environment} {span : Span} {inner : Expr} {t : Ty} (h : HasType names Γ inner t) :
      HasType names Γ (.paren span inner) t
  | typed {Γ : Environment} {span : Span} {inner : Expr} {written : TypeExpr} {t : Ty}
      (h : HasType names Γ inner t) (hwritten : Denotes names written t) :
      HasType names Γ (.typed span inner written) t

inductive HaveTypes (names : TypeNames) : Environment → List Expr → List Ty → Prop where
  | nil {Γ : Environment} : HaveTypes names Γ [] []
  | cons {Γ : Environment} {e : Expr} {es : List Expr} {t : Ty} {ts : List Ty}
      (h : HasType names Γ e t) (hrest : HaveTypes names Γ es ts) :
      HaveTypes names Γ (e :: es) (t :: ts)

end

end ScriptAnalyzer

import ScriptAnalyzer.Proofs.Syntax.Reading
import ScriptAnalyzer.Syntax.Tree

/-!
Trees without error nodes and without member accesses that lack their name. What a parser that records an error
for each error node guarantees, and how the guarantees of its parts make up its own.
-/

namespace ScriptAnalyzer
namespace TypeExpr

mutual

def isWhole : TypeExpr → Bool
  | named _ _ | var _ _ => true
  | app _ inner _ | array _ inner => isWhole inner
  | function _ domain codomain => isWhole domain && isWhole codomain
  | tuple _ items => areWhole items
  | error _ => false

def areWhole : List TypeExpr → Bool
  | [] => true
  | t :: ts => isWhole t && areWhole ts

end

theorem isWhole_withSpan (t : TypeExpr) (span : Span) : (t.withSpan span).isWhole = t.isWhole := by
  cases t <;> rfl

end TypeExpr

namespace Pattern

mutual

def isWhole : Pattern → Bool
  | named _ _ | wildcard _ | unit _ => true
  | tuple _ items => areWhole items
  | typed _ inner written => isWhole inner && written.isWhole
  | error _ => false

def areWhole : List Pattern → Bool
  | [] => true
  | p :: ps => isWhole p && areWhole ps

end

theorem isWhole_withSpan (p : Pattern) (span : Span) : (p.withSpan span).isWhole = p.isWhole := by
  cases p <;> rfl

end Pattern

def LetHead.isWhole (head : LetHead) : Bool :=
  head.pattern.isWhole && Pattern.areWhole head.params && head.returnType.all (·.isWhole)

namespace Expr

mutual

def isWhole : Expr → Bool
  | literal _ _ | ident _ => true
  | member _ target _ name => name.isSome && isWhole target
  | call _ callee args _ => isWhole callee && areWhole args
  | app _ first second | binary _ _ _ first second | sequential _ first second =>
    isWhole first && isWhole second
  | neg _ inner | paren _ inner => isWhole inner
  | conditional _ condition thenBranch elseBranch =>
    isWhole condition && isWhole thenBranch &&
      match elseBranch with | some branch => isWhole branch | none => true
  | lambda _ params body => Pattern.areWhole params && isWhole body
  | letIn _ head value body => head.isWhole && isWhole value && isWhole body
  | tuple _ items | list _ items => areWhole items
  | record _ fields => fieldsWhole fields
  | typed _ inner written => isWhole inner && written.isWhole
  | error _ => false

def areWhole : List Expr → Bool
  | [] => true
  | e :: es => isWhole e && areWhole es

def fieldsWhole : List (Ident × Expr) → Bool
  | [] => true
  | (_, e) :: fields => isWhole e && fieldsWhole fields

end

attribute [simp] isWhole areWhole

theorem areWhole_iff {es : List Expr} : areWhole es = true ↔ ∀ e ∈ es, e.isWhole = true := by
  induction es with
  | nil => simp [areWhole]
  | cons e es ih => simp [areWhole, ih]

theorem fieldsWhole_iff {fields : List (Ident × Expr)} :
    fieldsWhole fields = true ↔ ∀ f ∈ fields, f.2.isWhole = true := by
  induction fields with
  | nil => simp [fieldsWhole]
  | cons f fields ih => simp [fieldsWhole, ih]

end Expr

def Binding.isWhole (b : Binding) : Bool := b.toLetHead.isWhole && b.body.isWhole

def TypeBody.isWhole : TypeBody → Bool
  | record fields => fields.all (·.2.isWhole)
  | abbreviation written => written.isWhole

namespace Decl

mutual

def isWhole : Decl → Bool
  | binding _ b => b.isWhole
  | «open» _ _ | directive _ _ => true
  | module _ _ members => areWhole members
  | type _ _ body => body.isWhole
  | expr _ e => e.isWhole
  | error _ => false

def areWhole : List Decl → Bool
  | [] => true
  | d :: ds => isWhole d && areWhole ds

end

end Decl

/-! Parsers -/

namespace ParserState

variable {P Q : Prop} {s s₁ s₂ : ParserState}

/-- Errors are only added, and if there are none in the end then `P`. -/
structure Marks (P : Prop) (s s' : ParserState) : Prop where
  errors : s.errors <+: s'.errors
  holds : s'.errors = [] → P

theorem Marks.refl (h : P) : Marks P s s := ⟨List.prefix_rfl, fun _ => h⟩

theorem Marks.imp (h : Marks P s s₁) (hPQ : P → Q) : Marks Q s s₁ :=
  ⟨h.errors, fun hnone => hPQ (h.holds hnone)⟩

theorem Marks.and_then (h₁ : Marks P s s₁) (h₂ : Marks (P → Q) s₁ s₂) : Marks Q s s₂ where
  errors := h₁.errors.trans h₂.errors
  holds hnone := by
    have hnone₁ : s₁.errors = [] := List.prefix_nil.mp (hnone ▸ h₂.errors)
    exact h₂.holds hnone (h₁.holds hnone₁)

theorem marks_report (s : ParserState) (e : SyntaxError) : Marks P s (s.report e) where
  errors := (errors_report s e).1
  holds hnone := by
    obtain ⟨e', he', -⟩ := (errors_report s e).2
    rw [hnone] at he'
    cases he'

end ParserState

namespace Parser

open ParserState

variable {α β : Type} {p : Parser α} {P : α → Prop} {Q : β → Prop}

def Marks (p : Parser α) (P : α → Prop) : Prop :=
  ∀ s, p.Yields s fun a => ParserState.Marks (P a) s

namespace Marks

theorem imp {R : α → Prop} (hp : p.Marks P) (h : ∀ a, P a → R a) : p.Marks R :=
  fun s => (hp s).mono fun a _ hm => hm.imp (h a)

theorem bind {f : α → Parser β} (hp : p.Marks P) (hf : ∀ a, (f a).Marks fun b => P a → Q b) :
    (p >>= f).Marks Q := by
  intro s
  rw [yields_bind]
  refine (hp s).mono fun a s₁ h₁ => ?_
  exact (hf a s₁).mono fun b s₂ h₂ => h₁.and_then h₂

theorem trivially (hp : p.Marks P) : p.Marks fun _ => True := hp.imp fun _ _ => trivial

theorem pure {a : α} (h : P a) : Marks (pure a) P := fun _ => .refl h

theorem modify {f : ParserState → ParserState} (h : ∀ s, (f s).errors = s.errors) :
    Marks (modify f) fun _ => True :=
  fun s => ⟨(h s).symm ▸ List.prefix_rfl, fun _ => trivial⟩

theorem get : Marks get fun _ => True := fun _ => .refl trivial

/-- A parser that is run for its effect. -/
theorem next {f : α → Parser β} (hp : p.Marks fun _ => True) (hf : ∀ a, (f a).Marks Q) :
    (p >>= f).Marks Q :=
  hp.bind fun a => (hf a).imp fun _ h _ => h

theorem reported {f : α → Parser β} (hp : p.Marks fun _ => False) (hf : ∀ a, (f a).Marks fun _ => True) :
    (p >>= f).Marks Q :=
  hp.bind fun a => (hf a).imp fun _ _ h => h.elim

theorem ite {c : Prop} [Decidable c] {q : Parser α} (hp : p.Marks P) (hq : q.Marks P) :
    Marks (if c then p else q) P := by
  split
  · exact hp
  · exact hq

end Marks

/-! Elementary steps -/

theorem report_marks (e : SyntaxError) : (report e).Marks fun _ => False := fun s => marks_report s e

theorem error_marks (cause : SyntaxError.Cause) (span : Span) :
    (error cause span).Marks fun _ => False :=
  report_marks _

theorem skip_marks : skip.Marks fun _ => True :=
  .modify fun s => by unfold advance; split <;> rfl

theorem bump_marks : bump.Marks fun _ => True := skip_marks

theorem skipWhile_marks (q : LaidToken → Bool) : (skipWhile q).Marks fun _ => True :=
  .modify fun _ => rfl

theorem setAnchor_marks : setAnchor.Marks fun _ => True := .modify fun _ => rfl

theorem eat_marks (token : Token) : (eat token).Marks fun _ => True :=
  .next .get fun _ => .ite (.next bump_marks fun _ => .pure trivial) (.pure trivial)

theorem unexpected_marks : unexpected.Marks fun _ => False :=
  .next .get fun _ => .ite (error_marks _ _) (error_marks _ _)

theorem missing_marks (what : String) : (missing what).Marks fun _ => False :=
  .next .get fun _ => error_marks _ _

theorem reject_marks : reject.Marks fun _ => False :=
  .reported unexpected_marks fun _ => skip_marks

theorem when_marks {b : Bool} {q : Parser Unit} (hq : q.Marks fun _ => True) :
    (when b q).Marks fun _ => True :=
  .ite hq (.pure trivial)

theorem ifStuck_marks {left : Nat} {q : Parser Unit} (hq : q.Marks fun _ => True) :
    (ifStuck left q).Marks fun _ => True :=
  .next .get fun _ => .ite hq (.pure trivial)

theorem skipStray_marks : skipStray.Marks fun _ => True :=
  .next .get fun _ =>
    .ite (.pure trivial) (.next (error_marks _ _).trivially fun _ => skipWhile_marks _)

theorem expect_marks (token : Token) (what : String) :
    (expect token what).Marks fun found => found.isSome := by
  refine .next (eat_marks token) fun found => ?_
  cases found with
  | some span => exact .pure rfl
  | none => exact .reported (missing_marks what) fun _ => .pure trivial

theorem behind?_marks {token : Token} (hp : p.Marks P) :
    (behind? token p).Marks fun found => ∀ a ∈ found, P a := by
  refine .next (eat_marks token) fun found => ?_
  cases found with
  | none => exact .pure nofun
  | some span => exact .bind hp fun a => .pure fun ha b hb => Option.mem_some.mp hb ▸ ha

theorem ident?_marks : ident?.Marks fun _ => True := by
  refine .next .get fun s => ?_
  split
  · exact .next bump_marks fun _ => .pure trivial
  · exact .pure trivial

theorem longIdent?_marks : longIdent?.Marks fun _ => True := by
  refine .next ident?_marks fun head => ?_
  cases head with
  | none => exact .pure trivial
  | some head => exact .next .get fun _ => .next (.modify fun _ => rfl) fun _ => .pure trivial

theorem closing_marks (close : Punct) (e : SyntaxError) :
    (closing close e).Marks fun _ => True := by
  refine .next (eat_marks _) fun found => ?_
  cases found with
  | some span => exact .pure trivial
  | none => exact .next (report_marks e).trivially fun _ => .next .get fun _ => .pure trivial

theorem nested_marks (hp : p.Marks P) : (nested p).Marks P :=
  .next (.modify fun _ => rfl) fun _ => .bind hp fun _ =>
    .next (.modify fun _ => rfl) fun _ => .pure id

theorem withOffside_marks {column : Nat} (hp : p.Marks P) : (withOffside column p).Marks P :=
  .next .get fun _ => .next (.modify fun _ => rfl) fun _ => .bind hp fun _ =>
    .next (.modify fun _ => rfl) fun _ => .pure id

/-! Types and patterns -/

theorem missingType_marks : missingType.Marks (·.isWhole) :=
  .reported (missing_marks _) fun _ => .next .get fun _ => .pure trivial

theorem typeSuffixes_marks (n : Nat) (t : TypeExpr) :
    (typeSuffixes n t).Marks fun u => t.isWhole → u.isWhole := by
  induction n generalizing t with
  | zero => exact .pure id
  | succ n ih =>
    refine .next .get fun s => .ite (.pure id) ?_
    split
    · refine .next longIdent?_marks fun ctor => ?_
      cases ctor with
      | none => exact .pure id
      | some ctor => exact ih _
    · refine .ite ?_ (.pure id)
      exact .next skip_marks fun _ => .next bump_marks fun _ => ih _
    · exact .pure id

structure TypesMark (n : Nat) : Prop where
  type : (type n).Marks (·.isWhole)
  tupleType : (tupleType n).Marks (·.isWhole)
  tupleTypeItems : (tupleTypeItems n).Marks fun items => TypeExpr.areWhole items
  suffixedType : (suffixedType n).Marks (·.isWhole)
  atomicType : (atomicType n).Marks (·.isWhole)

theorem atomicType_marks {n : Nat} (ih : TypesMark n) : (atomicType (n + 1)).Marks (·.isWhole) := by
  refine .next .get fun s => .ite missingType_marks ?_
  split
  · refine .next longIdent?_marks fun name => ?_
    cases name with
    | none => exact missingType_marks
    | some name => exact .pure rfl
  · exact .next bump_marks fun _ => .pure rfl
  · refine .next bump_marks fun _ => .bind (nested_marks ih.type) fun inner => ?_
    refine .next (closing_marks _ _) fun _ => .pure ?_
    rw [TypeExpr.isWhole_withSpan]
    exact id
  · exact missingType_marks

theorem typesMark (n : Nat) : TypesMark n := by
  induction n with
  | zero =>
    exact ⟨missingType_marks, missingType_marks, .pure rfl, missingType_marks, missingType_marks⟩
  | succ n ih =>
    refine ⟨?type, ?tupleType, ?items, ?suffixed, atomicType_marks ih⟩
    case type =>
      refine .bind ih.tupleType fun lhs => .next .get fun s => .ite ?_ (.pure id)
      refine .next skip_marks fun _ => .bind ih.type fun rhs => .pure fun hrhs hlhs => ?_
      simp [TypeExpr.isWhole, hlhs, hrhs]
    case tupleType =>
      refine .bind ih.suffixedType fun first => .bind ih.tupleTypeItems fun more => ?_
      split
      · refine .pure fun hmore hfirst => ?_
        simp [TypeExpr.isWhole, TypeExpr.areWhole, hfirst, hmore]
      · exact .pure fun _ => id
    case items =>
      refine .next .get fun s => .ite ?_ (.pure rfl)
      refine .next skip_marks fun _ => .bind ih.suffixedType fun item => ?_
      refine .bind ih.tupleTypeItems fun more => .pure fun hmore hitem => ?_
      simp [TypeExpr.areWhole, hitem, hmore]
    case suffixed =>
      exact .bind ih.atomicType fun atom => typeSuffixes_marks n atom

theorem invalidPattern_marks : invalidPattern.Marks (·.isWhole) :=
  .next .get fun _ => .reported (error_marks _ _) fun _ => .pure trivial

structure PatternsMark (n : Nat) : Prop where
  atomicPattern : (atomicPattern n).Marks (·.isWhole)
  tuplePattern : (tuplePattern n).Marks (·.isWhole)
  tuplePatternItems : ∀ item, (tuplePatternItems n item).Marks fun items => Pattern.areWhole items
  annotatedPattern : (annotatedPattern n).Marks (·.isWhole)

theorem atomicPattern_marks {n : Nat} (ih : PatternsMark n) :
    (atomicPattern (n + 1)).Marks (·.isWhole) := by
  refine .next .get fun s => ?_
  dsimp only
  split
  · refine .next skip_marks fun _ => .pure ?_
    split <;> rfl
  · refine .next skip_marks fun _ => .next (eat_marks _) fun close => ?_
    cases close with
    | some close => exact .pure rfl
    | none =>
      refine .bind (nested_marks ih.tuplePattern) fun inner => ?_
      refine .next (closing_marks _ _) fun _ => .pure ?_
      rw [Pattern.isWhole_withSpan]
      exact id
  · exact invalidPattern_marks

theorem patternsMark (n : Nat) : PatternsMark n := by
  induction n with
  | zero =>
    exact ⟨invalidPattern_marks, invalidPattern_marks, fun _ => .pure rfl, invalidPattern_marks⟩
  | succ n ih =>
    refine ⟨atomicPattern_marks ih, ?tuple, fun item => ?items, ?annotated⟩
    case tuple =>
      refine .bind ih.annotatedPattern fun first => .bind (ih.tuplePatternItems first) fun more => ?_
      split
      · refine .pure fun hmore hfirst => ?_
        simp [Pattern.isWhole, Pattern.areWhole, hfirst, hmore]
      · exact .pure fun _ => id
    case items =>
      refine .ite (.pure rfl) (.next (eat_marks _) fun comma => ?_)
      cases comma with
      | none => exact .pure rfl
      | some comma =>
        refine .bind ih.annotatedPattern fun item => .bind (ih.tuplePatternItems item) fun more => ?_
        exact .pure fun hmore hitem => by simp [Pattern.areWhole, hitem, hmore]
    case annotated =>
      refine .bind ih.atomicPattern fun pattern => .next (eat_marks _) fun colon => ?_
      cases colon with
      | none => exact .pure id
      | some colon =>
        refine .bind (typesMark n).type fun annotation => .pure fun hannotation hpattern => ?_
        simp [Pattern.isWhole, hpattern, hannotation]

theorem params_marks (n : Nat) : (params n).Marks fun ps => Pattern.areWhole ps := by
  induction n with
  | zero => exact .pure rfl
  | succ n ih =>
    have hparam : (do
        let p ← atomicPattern n
        let ps ← params n
        return p :: ps : Parser (List Pattern)).Marks fun ps => Pattern.areWhole ps := by
      refine .bind (patternsMark n).atomicPattern fun p => .bind ih fun ps => .pure fun hps hp => ?_
      simp [Pattern.areWhole, hp, hps]
    refine .next .get fun s => ?_
    split
    · exact .ite (.pure rfl) hparam
    · exact .ite (.pure rfl) hparam
    · exact .pure rfl

end Parser

end ScriptAnalyzer

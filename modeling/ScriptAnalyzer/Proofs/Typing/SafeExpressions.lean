import ScriptAnalyzer.Proofs.Typing.SafeCalls

/-!
Expressions are safe, whatever they refer to and whatever is wrong with them.
-/

namespace ScriptAnalyzer

open Referring

variable {n : Nat} {k : Extent}

namespace Checker

/-- Checking the expression is safe wherever its places are places of the text. -/
def SafeExpr (n : Nat) (k : Extent) (e : Expr) : Prop :=
  ∀ k', k ≤ k' → ∀ expected, Within k' expected → Safe n k' (expr e expected)

def SafeExprs (n : Nat) (k : Extent) (es : List Expr) : Prop :=
  ∀ k', k ≤ k' → ∀ expected, Within k' expected → Safe n k' (exprs es expected)

variable {span : Span} {e lhs rhs : Expr}

namespace SafeExpr

theorem mono {k' : Extent} (h : SafeExpr n k e) (hk : k ≤ k') : SafeExpr n k' e :=
  fun _ hk' => h _ (hk.trans hk')

theorem value (h : SafeExpr n k e) (he : Within k e) :
    SafeValue n k fun expected => valueOf e (expr e expected) :=
  fun _ hk expected hexpected => valueOf_safe (Referring.mono hk he) (h _ hk expected hexpected)

/-- The type of the expression, if none is expected. -/
theorem type (h : SafeExpr n k e) (he : Within k e) : Safe n k (valueOf e (expr e none)) :=
  h.value he k (le_refl _) none within_none

/-- Checking against a type whose meaning is not needed. -/
theorem against (h : SafeExpr n k e) {t : Ty} (ht : Within k t) : Safe n k (expr e (some t)) :=
  h k (le_refl _) (some t) (within_some.mpr ht)

/-- An expression whose type is compared with the expected one at the end. -/
theorem of_settled {p : Option Ty → Checker Callee}
    (heq : ∀ expected, expr e expected = settle span expected (p expected)) (hspan : Within k span)
    (h : ∀ k', k ≤ k' → ∀ expected, Within k' expected → Safe n k' (p expected)) : SafeExpr n k e :=
  fun k' hk expected hexpected => by
    rw [heq]
    exact settle_safe (Referring.mono hk hspan) hexpected (h k' hk expected hexpected)

end SafeExpr

theorem member_safe {dot : Span} {target : Expr} {name : Option Ident}
    (h : Within k (Expr.member span target dot name)) (htarget : SafeExpr n k target) :
    SafeExpr n k (.member span target dot name) := by
  obtain ⟨hown, -, hchildren⟩ := Expr.within_iff.mp h
  obtain ⟨hspan, hdot, hname⟩ : Within k span ∧ Within k dot ∧ Within k (name.toList.map (·.span)) := by
    simpa only [Expr.ownSpans, within_cons] using hown
  have hname : Within k name := fun part hpart =>
    hname part.span (List.mem_map_of_mem (Option.mem_toList.mpr hpart))
  have hwithin : Within k target := hchildren target List.mem_cons_self
  refine .of_settled (fun _ => rfl) hspan fun k₁ hk _ _ => ?_
  have hlong : ∀ path, target.longName? = some path → Within k₁ path.parts :=
    fun path hpath => mono hk (Expr.within_longName hwithin hpath)
  refine (entityOf_safe hlong).bind fun path? k₂ hk₂ _ => ?_
  have hk := hk.trans hk₂
  cases path? with
  | some path => exact entityMember_safe (mono hk hspan) (mono hk hdot) (mono hk hname) path
  | none =>
    refine ((htarget.mono hk).type (mono hk hwithin)).bind fun receiver k₃ hk₃ hreceiver => ?_
    have hk := hk.trans hk₃
    exact valueMember_safe (mono hk hspan) (mono hk hdot) hreceiver (mono hk hname)

theorem call_safe {callee : Expr} {args : List Expr} {parens : Span}
    (h : Within k (Expr.call span callee args parens)) (hcallee : SafeExpr n k callee)
    (hargs : SafeExprs n k args) : SafeExpr n k (.call span callee args parens) := by
  obtain ⟨hown, -, hchildren⟩ := Expr.within_iff.mp h
  obtain ⟨hspan, hparens, -⟩ : Within k span ∧ Within k parens ∧ Within k ([] : List Span) := by
    simpa only [Expr.ownSpans, within_cons] using hown
  obtain ⟨hwithin, hargsWithin⟩ := within_cons.mp hchildren
  have hcalleeSpan := Expr.within_span hwithin
  refine .of_settled (fun _ => rfl) hspan fun k₁ hk _ _ => ?_
  refine (hcallee k₁ hk none within_none).bind fun target k₂ hk₂ htarget => ?_
  have hk := hk.trans hk₂
  refine (recordCall_safe (mono (α := CallSite) hk ⟨hcalleeSpan, hparens⟩)).next ?_
  have applied (arg : Ty) {t : Ty} {k₃ : Extent} (hk₃ : k₂ ≤ k₃) (ht : Within k₃ t)
      (harg : Within k₃ arg) :
      Safe n k₃ (do return Callee.value (← applyType t arg callee.span parens)) := by
    have hk := hk.trans hk₃
    exact (applyType_safe ht harg (mono hk hcalleeSpan) (mono hk hparens)).bind fun _ _ _ hr => .pure hr
  split
  case h_1 name overloads =>
    refine (hargs k₂ hk none within_none).bind fun ts k₃ hk₃ hts => ?_
    exact (callMethod_safe name (mono (α := List Overload) hk₃ htarget) hts
      (mono (hk.trans hk₃) hparens)).bind fun _ _ _ hr => .pure hr
  case h_2 t _ =>
    split
    case h_1 => exact applied .unit (le_refl _) htarget (Ty.within_atom _)
    case h_2 arg heq _ =>
      have harg : Within k arg.span := Expr.within_span (hargsWithin arg (List.mem_of_head? heq))
      refine (apply_safe htarget (mono hk hcalleeSpan) (mono hk harg) within_none
        fun k₃ hk₃ expected hexpected => ?_).bind fun _ _ _ hr => .pure hr
      refine (hargs k₃ (hk.trans hk₃) expected hexpected).bind fun ts _ _ hts => .pure ?_
      cases ts with
      | nil => exact Ty.within_error
      | cons t ts => exact (within_cons.mp hts).1
    case h_3 =>
      refine (hargs k₂ hk none within_none).bind fun ts k₃ hk₃ hts => ?_
      exact applied (.tuple ts) hk₃ (mono (α := Ty) hk₃ htarget) (Ty.within_tuple.mpr hts)

theorem app_safe {function arg : Expr} (h : Within k (Expr.app span function arg))
    (hfunction : SafeExpr n k function) (harg : SafeExpr n k arg) :
    SafeExpr n k (.app span function arg) := by
  obtain ⟨hown, -, hchildren⟩ := Expr.within_iff.mp h
  obtain ⟨hfunctionWithin, hargWithin⟩ := within_cons.mp hchildren
  have hargWithin := within_singleton.mp hargWithin
  have hfunctionSpan := Expr.within_span hfunctionWithin
  have hargSpan := Expr.within_span hargWithin
  refine .of_settled (fun _ => rfl) (within_singleton.mp hown) fun k₁ hk expected hexpected => ?_
  refine (formatApplication_safe (mono hk hfunctionSpan) (mono hk hargSpan)).bind fun t? k₂ hk₂ ht => ?_
  cases t? with
  | some t =>
    have ht := within_some.mp ht
    exact .pure ht
  | none =>
    refine (hfunction k₂ (hk.trans hk₂) none within_none).bind fun target k₃ hk₃ htarget => ?_
    have hk₂₃ := hk₂.trans hk₃
    have hk := hk.trans hk₂₃
    split
    case h_1 name overloads =>
      have hargs := methodArgs_safe arg ((harg.mono hk).type (mono hk hargWithin))
      refine hargs.bind fun ts k₄ hk₄ hts => ?_
      exact (callMethod_safe name (mono (α := List Overload) hk₄ htarget) hts
        (mono (hk.trans hk₄) hargSpan)).bind fun _ _ _ hr => .pure hr
    case h_2 t _ =>
      exact (apply_safe htarget (mono hk hfunctionSpan) (mono hk hargSpan) (mono hk₂₃ hexpected)
        ((harg.value hargWithin).mono hk)).bind fun _ _ _ hr => .pure hr

theorem pipe_safe {opSpan : Span} (hlhs : SafeExpr n k lhs) (hrhs : SafeExpr n k rhs)
    (hspan : Within k span) (hlhsWithin : Within k lhs) (hrhsWithin : Within k rhs) :
    SafeExpr n k (.binary span .pipe opSpan lhs rhs) := by
  refine .of_settled (fun _ => rfl) hspan fun k₁ hk _ _ => ?_
  refine ((hlhs.mono hk).type (mono hk hlhsWithin)).bind fun arg k₂ hk₂ harg => ?_
  have hk := hk.trans hk₂
  split
  case isTrue =>
    refine (hrhs k₂ hk none within_none).bind fun target k₃ hk₃ htarget => ?_
    have hk := hk.trans hk₃
    have hrhsSpan := mono hk (Expr.within_span hrhsWithin)
    have harg := mono hk₃ harg
    split
    case h_1 name overloads =>
      exact (callMethod_safe name htarget (within_singleton.mpr harg) hrhsSpan).bind fun _ _ _ hr => .pure hr
    case h_2 t _ =>
      exact (applyType_safe htarget harg hrhsSpan (mono hk (Expr.within_span hlhsWithin))).bind
        fun _ _ _ hr => .pure hr
  case isFalse =>
    refine fresh_safe.bind fun ret k₃ hk₃ hret => ?_
    have hfunction := Ty.within_function.mpr ⟨mono hk₃ harg, hret⟩
    exact ((hrhs.mono (hk.trans hk₃)).against hfunction).bind fun _ _ hk₄ _ => .pure (mono hk₄ hret)

theorem binary_safe {op : BinaryOp} {opSpan : Span} (h : Within k (Expr.binary span op opSpan lhs rhs))
    (hlhs : SafeExpr n k lhs) (hrhs : SafeExpr n k rhs) :
    SafeExpr n k (.binary span op opSpan lhs rhs) := by
  obtain ⟨hown, -, hchildren⟩ := Expr.within_iff.mp h
  obtain ⟨hspan, hopSpan⟩ := within_cons.mp hown
  have hopSpan := within_singleton.mp hopSpan
  obtain ⟨hlhsWithin, hrhsWithin⟩ := within_cons.mp hchildren
  have hrhsWithin := within_singleton.mp hrhsWithin
  -- operands of a known atomic type
  have hatomic {k₁ : Extent} (hk : k ≤ k₁) (name result : String) : Safe n k₁ (do
      let _ ← expr lhs (some (.atom name))
      let _ ← expr rhs (some (.atom name))
      return Callee.value (.atom result)) :=
    (((hlhs.mono hk).against (Ty.within_atom _)).next
      (((hrhs.mono hk).against (Ty.within_atom _)).next (.pure (Ty.within_atom _))))
  have hsame {k₁ : Extent} (hk : k ≤ k₁) (p : Ty → Checker Callee)
      (hp : ∀ t k', k₁ ≤ k' → Within k' t → Safe n k' (p t)) : Safe n k₁ (do
      let t ← valueOf lhs (expr lhs none)
      let _ ← expr rhs (some t)
      p t) := by
    refine ((hlhs.mono hk).type (mono hk hlhsWithin)).bind fun t k₂ hk₂ ht => ?_
    refine ((hrhs.mono (hk.trans hk₂)).against ht).bind fun _ k₃ hk₃ _ => ?_
    exact hp t k₃ (hk₂.trans hk₃) (mono hk₃ ht)
  rcases op.kinds with rfl | hop | rfl | hop | hop
  · exact pipe_safe hlhs hrhs hspan hlhsWithin hrhsWithin
  · rcases hop with rfl | rfl <;>
      exact .of_settled (fun _ => rfl) hspan fun k₁ hk _ _ => hatomic hk "bool" "bool"
  · exact .of_settled (fun _ => rfl) hspan fun k₁ hk _ _ => hatomic hk "string" "string"
  · have hcompare {k₁ : Extent} (hk : k ≤ k₁) :=
      hsame hk (fun _ => return .value .bool) fun t k' _ _ => .pure (Ty.within_atom _)
    cases op <;>
      first | exact .of_settled (fun _ => rfl) hspan fun k₁ hk _ _ => hcompare hk | cases hop
  · have hcompute {k₁ : Extent} (hk : k ≤ k₁) :=
      hsame hk (fun t => return .value (← arithmetic op t opSpan)) fun t k' hk' ht =>
        (arithmetic_safe op ht (mono (hk.trans hk') hopSpan)).bind fun _ _ _ hr => .pure hr
    cases op <;>
      first | exact .of_settled (fun _ => rfl) hspan fun k₁ hk _ _ => hcompute hk | cases hop

theorem neg_safe (h : Within k (Expr.neg span e)) (he : SafeExpr n k e) : SafeExpr n k (.neg span e) := by
  obtain ⟨hown, -, hchildren⟩ := Expr.within_iff.mp h
  have hspan := within_singleton.mp hown
  refine .of_settled (fun _ => rfl) hspan fun k₁ hk _ _ => ?_
  have hwithin := mono hk (within_singleton.mp hchildren)
  refine ((he.mono hk).type hwithin).bind fun t k₂ hk₂ ht => ?_
  exact (arithmetic_safe .sub ht (mono (hk.trans hk₂) hspan)).bind fun _ _ _ hr => .pure hr

theorem conditional_safe {condition thenBranch : Expr} {elseBranch : Option Expr}
    (hspan : Within k span) (hcondition : SafeExpr n k condition) (hthen : SafeExpr n k thenBranch)
    (helse : ∀ branch ∈ elseBranch, SafeExpr n k branch) :
    SafeExpr n k (.conditional span condition thenBranch elseBranch) := by
  cases elseBranch with
  | none =>
    refine .of_settled (fun _ => rfl) hspan fun k₁ hk _ _ => ?_
    exact ((hcondition.mono hk).against (Ty.within_atom _)).next
      (((hthen.mono hk).against (Ty.within_atom _)).next (.pure (Ty.within_atom _)))
  | some branch =>
    refine .of_settled (fun _ => rfl) hspan fun k₁ hk expected hexpected => ?_
    refine ((hcondition.mono hk).against (Ty.within_atom _)).bind fun _ k₂ hk₂ _ => ?_
    have hk₁ := hk.trans hk₂
    have hbranches {t : Ty} {k₃ : Extent} (hk₃ : k₂ ≤ k₃) (ht : Within k₃ t) : Safe n k₃ (do
        let _ ← expr thenBranch (some t)
        let _ ← expr branch (some t)
        return Callee.value t) := by
      have hk := hk₁.trans hk₃
      refine ((hthen.mono hk).against ht).bind fun _ k₄ hk₄ _ => ?_
      refine (((helse branch rfl).mono (hk.trans hk₄)).against (mono hk₄ ht)).bind fun _ _ hk₅ _ => ?_
      exact .pure (mono (hk₄.trans hk₅) ht)
    cases expected with
    | some t => exact hbranches (le_refl _) (mono hk₂ (within_some.mp hexpected))
    | none => exact fresh_safe.bind fun t _ hk₃ ht => hbranches hk₃ ht

theorem lambda_safe {params : List Pattern} {body : Expr} (h : Within k (Expr.lambda span params body))
    (hbody : SafeExpr n k body) : SafeExpr n k (.lambda span params body) := by
  obtain ⟨hown, -, hchildren⟩ := Expr.within_iff.mp h
  obtain ⟨hspan, hparams⟩ := within_cons.mp hown
  have hparams := Pattern.within_spansOfAll.mp hparams
  have hbodySpan := Expr.within_span (within_singleton.mp hchildren)
  refine .of_settled (fun _ => rfl) hspan fun k₁ hk expected hexpected => Safe.withScope ?_
  have hrest {expected : Option Ty} {k₂ : Extent} (hk₂ : k₁ ≤ k₂) (hexpected : Within k₂ expected) :
      Safe n k₂ (lambdaFrom body.span params (expr body) expected) := by
    have hk := hk.trans hk₂
    refine (bindParams_safe (mono hk hbodySpan) (mono hk hparams) hexpected).bind
      fun r k₃ hk₃ hr => ?_
    obtain ⟨ts, result?⟩ := r
    have hk := hk.trans hk₃
    have hresult {ret : Ty} {k₄ : Extent} (hk₄ : k₃ ≤ k₄) (hret : Within k₄ ret) : Safe n k₄ (do
        let _ ← expr body (some ret)
        return Callee.value (.curried ts ret)) := by
      refine ((hbody.mono (hk.trans hk₄)).against hret).bind fun _ _ hk₅ _ => .pure ?_
      exact Ty.within_curried.mpr ⟨mono (hk₄.trans hk₅) hr.1, mono hk₅ hret⟩
    cases result? with
    | some t => exact hresult (le_refl _) (within_some.mp hr.2)
    | none => exact fresh_safe.bind fun t _ hk₄ ht => hresult hk₄ ht
  cases expected with
  | some t =>
    have hshallow : Safe n k₁ (some <$> shallow t) :=
      (shallow_safe (within_some.mp hexpected)).map fun t _ _ ht => within_some.mpr ht
    exact hshallow.bind fun expected _ hk₂ hexpected => hrest hk₂ hexpected
  | none => exact hrest (le_refl _) within_none

theorem letIn_safe {head : LetHead} {value body : Expr} (h : Within k (Expr.letIn span head value body))
    (hvalue : SafeExpr n k value) (hbody : SafeExpr n k body) :
    SafeExpr n k (.letIn span head value body) := by
  obtain ⟨hown, hends, hchildren⟩ := Expr.within_iff.mp h
  obtain ⟨hspan, hhead⟩ := within_cons.mp hown
  obtain ⟨hvalueWithin, hbodyWithin⟩ := within_cons.mp hchildren
  have hbodyWithin := within_singleton.mp hbodyWithin
  have hhead : Within k head := hhead
  have hscope : Within k (Span.mk head.span.stop body.span.stop) :=
    ⟨hends, (Expr.within_span hbodyWithin).inside⟩
  refine .of_settled (fun _ => rfl) hspan fun k₁ hk expected hexpected => Safe.withScope ?_
  refine (checkBinding_safe (mono hk hhead) (mono hk (Expr.within_span hvalueWithin)) (mono hk hscope)
    ((hvalue.value hvalueWithin).mono hk) false).bind fun bound k₂ hk₂ hbound => ?_
  have hk := hk.trans hk₂
  refine ((hbody.value hbodyWithin) k₂ hk expected (mono hk₂ hexpected)).bind fun t k₃ hk₃ ht => ?_
  exact (warnUnused_safe (mono hk₃ hbound)).next (.pure ht)

theorem sequential_safe {first second : Expr} (h : Within k (Expr.sequential span first second))
    (hfirst : SafeExpr n k first) (hsecond : SafeExpr n k second) :
    SafeExpr n k (.sequential span first second) := by
  obtain ⟨-, -, hchildren⟩ := Expr.within_iff.mp h
  obtain ⟨hfirstWithin, hsecondWithin⟩ := within_cons.mp hchildren
  have hsecondWithin := within_singleton.mp hsecondWithin
  intro k₁ hk expected hexpected
  refine ((hfirst.mono hk).type (mono hk hfirstWithin)).bind fun t k₂ hk₂ ht => ?_
  have hk := hk.trans hk₂
  refine (warnIgnored_safe ht (mono hk (Expr.within_span hfirstWithin))).next ?_
  exact ((hsecond.value hsecondWithin) k₂ hk expected (mono hk₂ hexpected)).bind fun _ _ _ hr => .pure hr

theorem fields_safe {record : Option Entity} {fields : List (Ident × Expr)} {k : Extent}
    (hrecord : Within k record) (hnames : Within k (fields.map (·.1.span)))
    (h : ∀ field ∈ fields, Within k field.2 ∧ SafeExpr n k field.2) :
    Safe n k (exprFields record fields) := by
  induction fields generalizing k with
  | nil => exact .pure trivial
  | cons field fields ih =>
    obtain ⟨name, value⟩ := field
    obtain ⟨hname, hnames⟩ := within_cons.mp hnames
    obtain ⟨hvalue, hfields⟩ := List.forall_mem_cons.mp h
    refine (fieldType_safe hrecord hname).bind fun expected k₁ hk hexpected => ?_
    refine ((hvalue.2.value hvalue.1) k₁ hk expected hexpected).bind fun _ k₂ hk₂ _ => ?_
    have hk := hk.trans hk₂
    exact ih (mono hk hrecord) (mono hk hnames) fun field hfield =>
      ⟨mono hk (hfields field hfield).1, (hfields field hfield).2.mono hk⟩

theorem record_safe {fields : List (Ident × Expr)} (h : Within k (Expr.record span fields))
    (hfields : ∀ field ∈ fields, SafeExpr n k field.2) : SafeExpr n k (.record span fields) := by
  obtain ⟨hown, -, hchildren⟩ := Expr.within_iff.mp h
  obtain ⟨hspan, hnames⟩ := within_cons.mp hown
  refine .of_settled (fun _ => rfl) hspan fun k₁ hk _ _ => ?_
  refine (recordOf_safe (mono hk hspan) (mono hk hnames)).bind fun record k₂ hk₂ hrecord => ?_
  have hk := hk.trans hk₂
  refine (fields_safe hrecord (mono hk hnames) fun field hfield => ⟨?_, ?_⟩).next (.pure ?_)
  · exact mono hk (hchildren field.2 (List.mem_map_of_mem hfield))
  · exact (hfields field hfield).mono hk
  · cases record with
    | none => exact Ty.within_error
    | some record => exact Ty.within_atom _

theorem typed_safe {written : TypeExpr} (h : Within k (Expr.typed span e written))
    (he : SafeExpr n k e) : SafeExpr n k (.typed span e written) := by
  obtain ⟨hown, -, -⟩ := Expr.within_iff.mp h
  obtain ⟨hspan, hwritten⟩ := within_cons.mp hown
  refine .of_settled (fun _ => rfl) hspan fun k₁ hk _ _ => ?_
  refine (annotation_safe written (mono (α := TypeExpr) hk hwritten)).bind fun t k₂ hk₂ ht => ?_
  exact ((he.mono (hk.trans hk₂)).against ht).bind fun _ _ hk₃ _ => .pure (mono hk₃ ht)

mutual

theorem expr_safe (n : Nat) (k : Extent) (e : Expr) (h : Within k e) : SafeExpr n k e := by
  obtain ⟨hown, -, hchildren⟩ := Expr.within_iff.mp h
  match e with
  | .literal span l =>
    exact .of_settled (p := fun _ => return .value l.type) (fun _ => rfl) (within_singleton.mp hown)
      fun _ _ _ _ => .pure l.within_type
  | .ident name =>
    have hname : Within k name := hown name.span List.mem_cons_self
    exact .of_settled (p := fun _ => nameCallee name) (fun _ => rfl) hname
      fun _ hk _ _ => nameCallee_safe (mono hk hname)
  | .member span target dot name =>
    exact member_safe h (expr_safe n k target (hchildren target List.mem_cons_self))
  | .call span callee args parens =>
    obtain ⟨hcallee, hargs⟩ := within_cons.mp hchildren
    exact call_safe h (expr_safe n k callee hcallee) (exprs_safe n k args hargs)
  | .app span function arg =>
    obtain ⟨hfunction, harg⟩ := within_cons.mp hchildren
    exact app_safe h (expr_safe n k function hfunction) (expr_safe n k arg (within_singleton.mp harg))
  | .neg span inner => exact neg_safe h (expr_safe n k inner (within_singleton.mp hchildren))
  | .binary span op opSpan lhs rhs =>
    obtain ⟨hlhs, hrhs⟩ := within_cons.mp hchildren
    exact binary_safe h (expr_safe n k lhs hlhs) (expr_safe n k rhs (within_singleton.mp hrhs))
  | .conditional span condition thenBranch (some elseBranch) =>
    obtain ⟨hcondition, hbranches⟩ := within_cons.mp hchildren
    obtain ⟨hthen, helse⟩ := within_cons.mp hbranches
    have helse := expr_safe n k elseBranch (within_singleton.mp helse)
    exact conditional_safe (within_singleton.mp hown) (expr_safe n k condition hcondition)
      (expr_safe n k thenBranch hthen) fun _ hbranch => Option.some.inj hbranch ▸ helse
  | .conditional span condition thenBranch none =>
    obtain ⟨hcondition, hthen⟩ := within_cons.mp hchildren
    exact conditional_safe (within_singleton.mp hown) (expr_safe n k condition hcondition)
      (expr_safe n k thenBranch (within_singleton.mp hthen)) nofun
  | .lambda span params body =>
    exact lambda_safe h (expr_safe n k body (within_singleton.mp hchildren))
  | .letIn span head value body =>
    obtain ⟨hvalue, hbody⟩ := within_cons.mp hchildren
    exact letIn_safe h (expr_safe n k value hvalue) (expr_safe n k body (within_singleton.mp hbody))
  | .sequential span first second =>
    obtain ⟨hfirst, hsecond⟩ := within_cons.mp hchildren
    exact sequential_safe h (expr_safe n k first hfirst) (expr_safe n k second (within_singleton.mp hsecond))
  | .tuple span items =>
    have hitems := exprs_safe n k items hchildren
    refine .of_settled (fun _ => rfl) (within_singleton.mp hown) fun k₁ hk _ _ => ?_
    exact (hitems k₁ hk none within_none).bind fun ts _ _ hts => .pure (Ty.within_tuple.mpr hts)
  | .list span items =>
    have hitems := exprs_safe n k items hchildren
    refine .of_settled (fun _ => rfl) (within_singleton.mp hown) fun k₁ hk _ _ => ?_
    refine fresh_safe.bind fun element k₂ hk₂ helement => ?_
    refine (hitems k₂ (hk.trans hk₂) (some element) (within_some.mpr helement)).bind fun _ _ hk₃ _ => ?_
    exact .pure (Ty.within_list.mpr (mono hk₃ helement))
  | .record span fields =>
    exact record_safe h (exprFields_safe n k fields hchildren)
  | .paren span inner => exact expr_safe n k inner (within_singleton.mp hchildren)
  | .typed span inner written => exact typed_safe h (expr_safe n k inner (within_singleton.mp hchildren))
  | .error span =>
    exact .of_settled (p := fun _ => return .value .error) (fun _ => rfl) (within_singleton.mp hown)
      fun _ _ _ _ => .pure Ty.within_error

theorem exprs_safe (n : Nat) (k : Extent) (es : List Expr) (h : Within k es) : SafeExprs n k es := by
  match es with
  | [] => exact fun _ _ _ _ => .pure within_nil
  | e :: es =>
    obtain ⟨he, hes⟩ := within_cons.mp h
    have hfirst := (expr_safe n k e he).value he
    have hrest := exprs_safe n k es hes
    intro k₁ hk expected hexpected
    refine (hfirst k₁ hk expected hexpected).bind fun t k₂ hk₂ ht => ?_
    refine (hrest k₂ (hk.trans hk₂) expected (mono hk₂ hexpected)).bind fun ts _ hk₃ hts => ?_
    exact .pure (within_cons.mpr ⟨mono hk₃ ht, hts⟩)

theorem exprFields_safe (n : Nat) (k : Extent) (fields : List (Ident × Expr))
    (h : Within k (fields.map (·.2))) : ∀ field ∈ fields, SafeExpr n k field.2 := by
  match fields with
  | [] => exact nofun
  | (name, e) :: fields =>
    obtain ⟨he, hfields⟩ := within_cons.mp h
    exact List.forall_mem_cons.mpr ⟨expr_safe n k e he, exprFields_safe n k fields hfields⟩

end

end Checker

end ScriptAnalyzer

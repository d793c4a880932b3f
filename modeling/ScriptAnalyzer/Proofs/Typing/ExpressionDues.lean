import ScriptAnalyzer.Proofs.Syntax.NamePlaces
import ScriptAnalyzer.Proofs.Typing.NameDues

/-!
Checking an expression puts on record, each once, the names and calls in it, whatever is expected of the
expression and whatever is wrong with it.
-/

namespace ScriptAnalyzer

def LetHead.dues (head : LetHead) : List Due :=
  (head.boundNames ++ Pattern.boundNamesOfAll head.params).map .bound

namespace Expr

/-- What an expression adds to the dues of its children. -/
def ownDues : Expr → List Due
  | ident n => [.use n]
  | call _ callee _ parens => [.call callee.span parens]
  | lambda _ params _ => (Pattern.boundNamesOfAll params).map .bound
  | letIn _ head _ _ => head.dues
  | _ => []

def dues (e : Expr) : List Due := e.preorder.flatMap ownDues

theorem dues_eq (e : Expr) : e.dues = e.ownDues ++ e.children.flatMap dues :=
  flatMap_preorder ownDues e

/-- A dotted name is looked up by its first segment. -/
theorem dues_of_longName {e : Expr} {name : LongIdent} (h : e.longName? = some name) :
    e.dues = [.use name.head] := by
  fun_induction longName? e generalizing name with
  | case1 n =>
    obtain rfl := Option.some.inj h
    rfl
  | case2 span target dot last ih =>
    obtain ⟨before, hbefore, rfl⟩ := Option.map_eq_some_iff.mp h
    rw [dues_eq]
    simpa [ownDues, children] using ih hbefore
  | case3 => cases h

/-- The expression is no record that starts at the place. -/
def NoRecordAt (x : Span) : Expr → Prop
  | record span _ => span.start ≠ x.start
  | _ => True

/-- At the place there is no other name than one that is looked up or bound, and no record. -/
structure Clear (x : Span) (e : Expr) : Prop where
  landmarks : ∀ m ∈ e.landmarks, m.Spares x
  records : ∀ d ∈ e.preorder, d.NoRecordAt x

theorem landmarks_of_child {e c : Expr} (h : c ∈ e.children) : c.landmarks ⊆ e.landmarks := by
  have hitem {es : List Expr} (h : c ∈ es) : c.landmarks ⊆ landmarksOfAll es := fun m hm => by
    rw [landmarksOfAll_eq]
    exact List.mem_flatMap.mpr ⟨c, h, hm⟩
  cases e with
  | literal _ _ | ident _ | error _ => cases h
  | member _ _ _ _ | neg _ _ | paren _ _ | typed _ _ _ | lambda _ _ _ =>
    obtain rfl := List.mem_singleton.mp h
    simp [landmarks]
  | call _ callee args _ =>
    rw [landmarks]
    rcases List.mem_cons.mp h with rfl | h
    · exact List.subset_append_left _ _
    · exact List.subset_append_of_subset_right _ (hitem h)
  | app _ _ _ | binary _ _ _ _ _ | letIn _ _ _ _ | sequential _ _ _ =>
    simp only [children, List.mem_cons, List.not_mem_nil, or_false] at h
    rcases h with rfl | rfl <;> simp [landmarks]
  | conditional _ condition thenBranch elseBranch =>
    cases elseBranch with
    | none =>
      simp only [children, Option.toList_none, List.mem_cons, List.not_mem_nil, or_false] at h
      rcases h with rfl | rfl <;> simp [landmarks]
    | some elseBranch =>
      simp only [children, Option.toList_some, List.mem_cons, List.not_mem_nil, or_false] at h
      rcases h with rfl | rfl | rfl <;> simp [landmarks]
  | tuple _ items | list _ items => exact hitem h
  | record _ fields =>
    obtain ⟨f, hf, rfl⟩ := List.mem_map.mp h
    rw [landmarks, landmarksOfFields_eq]
    exact fun m hm => List.mem_flatMap.mpr ⟨f, hf, List.mem_cons_of_mem _ hm⟩

theorem Clear.child {x : Span} {e c : Expr} (h : e.Clear x) (hc : c ∈ e.children) : c.Clear x :=
  ⟨fun m hm => h.landmarks m (landmarks_of_child hc hm),
    fun d hd => h.records d (preorder_of_child hc hd)⟩

/-- The names behind the first one of a dotted name stand behind dots. -/
theorem Clear.tail_away {x : Span} {e : Expr} (h : e.Clear x) :
    ∀ name ∈ e.longName?, ∀ n ∈ name.tail, n.Away x := by
  fun_induction longName? e with
  | case1 n =>
    intro name hname
    obtain rfl := Option.some.inj hname
    intro n hn
    cases hn
  | case2 span target dot last ih =>
    intro name hname
    obtain ⟨before, hbefore, rfl⟩ := Option.map_eq_some_iff.mp hname
    refine List.forall_mem_append.mpr ⟨ih (h.child List.mem_cons_self) before hbefore, ?_⟩
    exact List.forall_mem_singleton.mpr (h.landmarks (.member last) (by simp [Expr.landmarks]))
  | case3 =>
    intro name hname
    cases hname

end Expr

namespace Checker

open CheckerState

variable {x : Span} {dues : List Due}

/-! Applications -/

theorem valueOf_pays (e : Expr) {p : Checker Callee} (hp : p.Pays x dues) : (valueOf e p).Pays x dues :=
  hp.andThen fun _ => silent_calleeType _ _

theorem settle_pays (span : Span) (expected : Option Ty) {p : Checker Callee} (hp : p.Pays x dues) :
    (settle span expected p).Pays x dues := by
  unfold settle
  split
  · exact hp
  · refine hp.andThen fun c => (silent_calleeType _ c).bind fun t => ?_
    exact (silent_expect _ _ _).bind fun _ => silent_pure _

theorem recordCall_pays (site : CallSite) : (recordCall site).Pays x [.call site.callee site.parens] :=
  fun s => ⟨.call x site s, ⟨rfl, rfl, rfl⟩⟩

theorem apply_pays {arg : Option Ty → Checker Ty} (harg : ∀ expected, (arg expected).Pays x dues)
    (function : Ty) (functionSpan argSpan : Span) (expected : Option Ty) :
    (apply function functionSpan arg argSpan expected).Pays x dues := by
  refine (silent_shallow function).before fun head => ?_
  split
  case h_1 param ret =>
    have hrest : Pays (do let _ ← arg (some param); return ret) x dues :=
      (harg _).andThen fun _ => silent_pure _
    split
    · refine (silent_unifies _ _).before fun _ => ?_
      split
      · exact (silent_unify _ _).before fun _ => hrest
      · exact hrest
    · exact hrest
  case h_2 => exact (harg _).andThen fun _ => silent_pure _
  case h_3 => exact (harg _).andThen fun _ => silent_applyType _ _ _ _
  case h_4 => exact (harg _).andThen fun _ => silent_notAFunction _

/-- The unit in the place of the arguments of a method is not checked, and has nothing to put on record. -/
theorem methodArgs_pays {arg : Expr} {type : Checker Ty} (htype : type.Pays x arg.dues) :
    (methodArgs arg type).Pays x arg.dues := by
  unfold methodArgs
  dsimp only
  split
  case h_1 span heq =>
    have hnone : arg.dues = [] := by
      split at heq
      · rw [heq]
        rfl
      · rw [heq]
        rfl
    rw [hnone]
    exact (silent_pure _).pays
  case h_2 =>
    refine htype.andThen fun t => ?_
    split
    · exact silent_pure _
    · exact silent_pure _
  case h_3 => exact htype.andThen fun _ => silent_pure _

/-- A format function with its format string is checked here as a whole or not at all. -/
theorem formatApplication_pays (x : Span) (function arg : Expr) (s : CheckerState) :
    (formatApplication? function arg).Yields s fun t? s' =>
      t?.elim (s'.ledger = s.ledger) fun _ => s.Discharges x (function.dues ++ arg.dues) s' ∧ s.Stays s' := by
  unfold formatApplication?
  split
  case h_2 => exact rfl
  case h_1 name span format =>
    split
    case isTrue => exact rfl
    case isFalse =>
      simp only [yields_bind, yields_readScope, yields_get]
      split
      case h_2 => exact rfl
      case h_1 owner m hmeaning =>
        have hread : s.Discharges x [] s.readScope ∧ s.Stays s.readScope := silent_readScope.pays s
        have huse : s.Discharges x ((Expr.ident name).dues ++ (Expr.literal span (.string format)).dues)
            (s.readScope.note name.span (m.symbol owner)) ∧
              s.Stays (s.readScope.note name.span (m.symbol owner)) :=
          ⟨hread.1.trans hread.2.rooted (.note x name _ _), ⟨rfl, rfl, rfl⟩⟩
        rw [yields_bind, yields_mention]
        cases Format.arguments format.toList with
        | ok placeholders => exact (silent_formatType name.text placeholders).keepsDues huse
        | error bad =>
          refine Silent.keepsDues (silent_report _ ?_) huse
          cases bad.conversion <;> rfl

/-! Records -/

theorem fieldType_pays (record : Option Entity) {name : Ident} (hname : name.Away x) :
    (fieldType? record name).Pays x [] := by
  unfold fieldType?
  split
  case h_1 => exact (silent_pure _).pays
  case h_2 record =>
    dsimp only
    split
    · exact (mention_pays _ hname).andThen fun _ => silent_pure _
    · exact (report_pays _ hname.span_ne).andThen fun _ => silent_pure _

theorem recordOf_pays {span : Span} {fields : List (Ident × Expr)} (hspan : span ≠ x)
    (hfields : ∀ f ∈ fields, f.1.Away x) : (recordOf? span fields).Pays x [] := by
  unfold recordOf?
  split
  case h_1 => exact (report_pays _ hspan).andThen fun _ => silent_pure _
  case h_2 name _ _ =>
    refine Pays.getBind fun s => ?_
    split
    · exact (silent_pure _).pays
    · exact (report_pays _ (hfields _ List.mem_cons_self).span_ne).andThen fun _ => silent_pure _

/-! Expressions -/

/-- Whatever is expected of the expression, checking it puts its dues on record. -/
def Settles (x : Span) (e : Expr) : Prop := ∀ expected, (expr e expected).Pays x e.dues

variable {e : Expr}

theorem Settles.value (h : Settles x e) (expected : Option Ty) :
    (valueOf e (expr e expected)).Pays x e.dues :=
  valueOf_pays e (h expected)

theorem exprs_pay {es : List Expr} (h : ∀ e ∈ es, Settles x e) (expected : Option Ty) :
    (exprs es expected).Pays x (es.flatMap Expr.dues) := by
  induction es with
  | nil => exact (silent_pure _).pays
  | cons e es ih =>
    obtain ⟨he, hes⟩ := List.forall_mem_cons.mp h
    exact (he.value expected).bind fun t => (ih hes).andThen fun _ => silent_pure _

theorem exprFields_pay (record : Option Entity) {fields : List (Ident × Expr)}
    (hlabels : ∀ f ∈ fields, f.1.Away x) (hvalues : ∀ f ∈ fields, Settles x f.2) :
    (exprFields record fields).Pays x ((fields.map (·.2)).flatMap Expr.dues) := by
  induction fields with
  | nil => exact (silent_pure _).pays
  | cons f fields ih =>
    obtain ⟨name, value⟩ := f
    obtain ⟨hlabel, hlabels⟩ := List.forall_mem_cons.mp hlabels
    obtain ⟨hvalue, hvalues⟩ := List.forall_mem_cons.mp hvalues
    refine (fieldType_pays record hlabel).bind fun expected => ?_
    exact (hvalue.value expected).bind fun _ => ih hlabels hvalues

theorem member_settles {span dot : Span} {target : Expr} {name : Option Ident}
    (h : (Expr.member span target dot name).Clear x) (htarget : Settles x target) :
    Settles x (.member span target dot name) := by
  intro expected
  have hname : ∀ n ∈ name, n.Away x := fun n hn => h.landmarks (.member n) (by
    obtain rfl := Option.mem_def.mp hn
    simp [Expr.landmarks])
  have hdues : (Expr.member span target dot name).dues = target.dues := by
    rw [Expr.dues_eq]
    exact List.append_nil _
  rw [hdues]
  refine settle_pays span expected fun s => ?_
  have htail := (h.child List.mem_cons_self).tail_away
  refine (entityOf_pays htail s).bind fun path? s₁ h₁ => ?_
  cases path? with
  | some path =>
    obtain ⟨long, hlong, hdischarges, hstays⟩ := h₁.2 path rfl
    rw [Expr.dues_of_longName hlong]
    refine (entityMember_pays span dot path hname s₁).mono fun _ s₂ h₂ => ?_
    exact ⟨hdischarges.trans hstays.rooted h₂.1, hstays.trans h₂.2⟩
  | none =>
    suffices hvalue : Pays (do
        let receiver ← valueOf target (expr target none)
        valueMember span dot receiver name) x target.dues from hvalue.behind (h₁.1 rfl)
    simpa using (htarget.value none).bind fun receiver => valueMember_pays span dot receiver hname

/-- The callee is checked in front of the call, and the arguments behind it. -/
theorem call_settles {span parens : Span} {callee : Expr} {args : List Expr} (hcallee : Settles x callee)
    (hargs : ∀ e ∈ args, Settles x e) : Settles x (.call span callee args parens) := by
  intro expected
  have hdues : (Expr.call span callee args parens).dues =
      .call callee.span parens :: (callee.dues ++ args.flatMap Expr.dues) := by
    rw [Expr.dues_eq]
    rfl
  rw [hdues]
  refine (settle_pays span expected ?_).perm List.perm_middle
  refine (hcallee none).bind fun target => ?_
  dsimp only
  refine (recordCall_pays _).bind fun _ => ?_
  split
  case h_1 name overloads =>
    refine (exprs_pay hargs none).andThen fun ts => ?_
    exact (silent_callMethod _ _ _ _).bind fun _ => silent_pure _
  case h_2 t _ =>
    split
    case h_1 hnone =>
      obtain rfl : args = [] := List.head?_eq_none_iff.mp hnone
      exact ((silent_applyType _ _ _ _).bind fun _ => silent_pure _).pays
    case h_2 arg _ _ =>
      refine (apply_pays (fun e => ?_) _ _ _ _).andThen fun _ => silent_pure _
      exact (exprs_pay hargs e).andThen fun _ => silent_pure _
    case h_3 =>
      refine (exprs_pay hargs none).andThen fun ts => ?_
      exact (silent_applyType _ _ _ _).bind fun _ => silent_pure _

theorem app_settles {span : Span} {function arg : Expr} (hfunction : Settles x function)
    (harg : Settles x arg) : Settles x (.app span function arg) := by
  intro expected
  have hdues : (Expr.app span function arg).dues = function.dues ++ arg.dues := by
    simp [Expr.dues_eq (.app span function arg), Expr.ownDues, Expr.children]
  rw [hdues]
  refine settle_pays span expected fun s => ?_
  refine (formatApplication_pays x function arg s).bind fun t? s₁ h₁ => ?_
  cases t? with
  | some t => exact h₁
  | none =>
    refine Pays.behind ?_ h₁
    refine (hfunction none).bind fun target => ?_
    cases target with
    | method name overloads =>
      refine (methodArgs_pays (harg.value none)).andThen fun ts => ?_
      exact (silent_callMethod _ _ _ _).bind fun _ => silent_pure _
    | value t _ =>
      exact (apply_pays (fun e => harg.value e) t _ _ expected).andThen fun _ => silent_pure _

theorem binary_settles {span opSpan : Span} (op : BinaryOp) {lhs rhs : Expr} (hlhs : Settles x lhs)
    (hrhs : Settles x rhs) : Settles x (.binary span op opSpan lhs rhs) := by
  intro expected
  have hdues : (Expr.binary span op opSpan lhs rhs).dues = lhs.dues ++ rhs.dues := by
    simp [Expr.dues_eq (.binary span op opSpan lhs rhs), Expr.ownDues, Expr.children]
  rw [hdues]
  refine settle_pays span expected ?_
  have hboth (t : Ty) {q : Checker Callee} (hq : Silent q) : Pays (do
      let _ ← expr lhs (some t)
      let _ ← expr rhs (some t)
      q) x (lhs.dues ++ rhs.dues) :=
    (hlhs _).bind fun _ => (hrhs _).andThen fun _ => hq
  split
  case h_1 =>
    refine (hlhs.value none).bind fun arg => ?_
    split
    · refine (hrhs none).andThen fun target => ?_
      split
      · exact (silent_callMethod _ _ _ _).bind fun _ => silent_pure _
      · exact (silent_applyType _ _ _ _).bind fun _ => silent_pure _
    · refine silent_fresh.before fun ret => ?_
      exact (hrhs _).andThen fun _ => silent_pure _
  case h_2 => exact hboth .bool (silent_pure _)
  case h_3 => exact hboth .bool (silent_pure _)
  case h_4 => exact hboth .string (silent_pure _)
  case h_5 =>
    refine (hlhs.value none).bind fun t => (hrhs _).andThen fun _ => ?_
    split
    · exact silent_pure _
    · exact (silent_arithmetic _ _ _).bind fun _ => silent_pure _

theorem conditional_settles {span : Span} {condition thenBranch : Expr} {elseBranch : Option Expr}
    (hcondition : Settles x condition) (hthen : Settles x thenBranch)
    (helse : ∀ e ∈ elseBranch, Settles x e) :
    Settles x (.conditional span condition thenBranch elseBranch) := by
  intro expected
  have hdues : (Expr.conditional span condition thenBranch elseBranch).dues =
      condition.dues ++ (thenBranch.dues ++ elseBranch.toList.flatMap Expr.dues) := by
    rw [Expr.dues_eq]
    rfl
  rw [hdues]
  cases elseBranch with
  | none =>
    refine settle_pays span expected ?_
    exact (hcondition _).bind fun _ => (hthen _).bind fun _ => (silent_pure _).pays
  | some elseBranch =>
    have hbranches (t : Ty) : Pays (do
        let _ ← expr thenBranch (some t)
        let _ ← expr elseBranch (some t)
        return .value t : Checker Callee) x
          (thenBranch.dues ++ (some elseBranch).toList.flatMap Expr.dues) := by
      rw [Option.toList_some, List.flatMap_singleton]
      exact (hthen _).bind fun _ => (helse _ rfl _).andThen fun _ => silent_pure _
    refine settle_pays span expected ((hcondition _).bind fun _ => ?_)
    cases expected with
    | some t => exact hbranches t
    | none => exact silent_fresh.before hbranches

theorem lambda_settles {span : Span} {params : List Pattern} {body : Expr}
    (hparams : ∀ m ∈ Pattern.landmarksOfAll params, m.Spares x) (hbody : Settles x body) :
    Settles x (.lambda span params body) := by
  intro expected
  have hdues : (Expr.lambda span params body).dues =
      (Pattern.boundNamesOfAll params).map .bound ++ body.dues := by
    simp [Expr.dues_eq (.lambda span params body), Expr.ownDues, Expr.children]
  rw [hdues]
  refine settle_pays span expected (Pays.withScope ?_)
  have hrest (expected : Option Ty) : Pays (lambdaFrom body.span params (expr body) expected) x
      ((Pattern.boundNamesOfAll params).map .bound ++ body.dues) := by
    refine (bindParams_pay hparams expected).bind fun r => ?_
    obtain ⟨ts, result?⟩ := r
    have hret (ret : Ty) : Pays (do
        let _ ← expr body (some ret)
        return .value (.curried ts ret) : Checker Callee) x body.dues :=
      (hbody (some ret)).andThen fun _ => silent_pure _
    cases result? with
    | some t => exact hret t
    | none => exact silent_fresh.before hret
  cases expected with
  | some t => exact (silent_shallow t).before fun t => hrest (some t)
  | none => exact hrest none

theorem warnUnused_pays (bound : List Nat) : (warnUnused bound).Pays x [] := by
  have hone (index : Nat) : (warnIfUnused index).Pays x [] := by
    refine (silent_binderAt index).before fun _ => ?_
    split
    · exact (silent_pure _).pays
    · split
      · exact (silent_pure _).pays
      · exact report_unused_pays _ _
  have hall : (bound.forM warnIfUnused).Pays x [] := by
    induction bound with
    | nil => exact (silent_pure _).pays
    | cons i is ih =>
      rw [List.forM_eq_forM, List.forM_cons]
      exact (hone i).bind fun _ => ih
  refine .getBind fun s => ?_
  split
  · exact hall
  · exact (silent_pure _).pays

theorem letIn_settles {span : Span} {head : LetHead} {value body : Expr}
    (hhead : ∀ m ∈ head.landmarks, m.Spares x) (hvalue : Settles x value) (hbody : Settles x body) :
    Settles x (.letIn span head value body) := by
  intro expected
  have hdues : (Expr.letIn span head value body).dues = (head.dues ++ value.dues) ++ body.dues := by
    simp [Expr.dues_eq (.letIn span head value body), Expr.ownDues, Expr.children]
  rw [hdues]
  refine settle_pays span expected (Pays.withScope ?_)
  refine (checkBinding_pays hhead fun e => hvalue.value e).bind fun bound => ?_
  have hrest := (hbody.value expected).bind fun t =>
    (warnUnused_pays bound).andThen fun _ => silent_pure (Callee.value t)
  simpa using hrest

theorem record_settles {span : Span} {fields : List (Ident × Expr)} (h : (Expr.record span fields).Clear x)
    (hvalues : ∀ f ∈ fields, Settles x f.2) : Settles x (.record span fields) := by
  intro expected
  have hlabels : ∀ f ∈ fields, f.1.Away x := fun f hf => h.landmarks (.label f.1) (by
    rw [Expr.landmarks, Expr.landmarksOfFields_eq]
    exact List.mem_flatMap.mpr ⟨f, hf, List.mem_cons_self⟩)
  have hspan : span ≠ x := fun heq =>
    h.records _ (Expr.self_mem_preorder _) (congrArg Span.start heq)
  rw [Expr.dues_eq]
  refine settle_pays span expected ((recordOf_pays hspan hlabels).bind fun record => ?_)
  exact (exprFields_pay record hlabels hvalues).andThen fun _ => silent_pure _

theorem expr_settles (e : Expr) (h : e.Clear x) : Settles x e := by
  induction e using Expr.children_induction with
  | step e ih =>
    have ih : ∀ c ∈ e.children, Settles x c := fun c hc => ih c hc (h.child hc)
    have hone {c : Expr} (hchildren : e.children = [c]) (hown : e.ownDues = []) : e.dues = c.dues := by
      rw [Expr.dues_eq, hchildren, hown]
      exact List.append_nil _
    cases e with
    | literal span l => exact fun expected => settle_pays span expected (silent_pure _).pays
    | ident name => exact fun expected => settle_pays name.span expected (nameCallee_pays name)
    | member span target dot name => exact member_settles h (ih target List.mem_cons_self)
    | call span callee args parens =>
      obtain ⟨hcallee, hargs⟩ := List.forall_mem_cons.mp ih
      exact call_settles hcallee hargs
    | app span function arg =>
      exact app_settles (ih function (by simp [Expr.children])) (ih arg (by simp [Expr.children]))
    | neg span inner =>
      intro expected
      rw [hone rfl rfl]
      refine settle_pays span expected (((ih inner List.mem_cons_self).value none).andThen fun t => ?_)
      exact (silent_arithmetic _ _ _).bind fun _ => silent_pure _
    | binary span op opSpan lhs rhs =>
      exact binary_settles op (ih lhs (by simp [Expr.children])) (ih rhs (by simp [Expr.children]))
    | conditional span condition thenBranch elseBranch =>
      obtain ⟨hcondition, hbranches⟩ := List.forall_mem_cons.mp ih
      obtain ⟨hthen, helse⟩ := List.forall_mem_cons.mp hbranches
      exact conditional_settles hcondition hthen fun e he => helse e (Option.mem_toList.mpr he)
    | lambda span params body =>
      exact lambda_settles (List.forall_mem_append.mp h.landmarks).1 (ih body List.mem_cons_self)
    | letIn span head value body =>
      exact letIn_settles (List.forall_mem_append.mp h.landmarks).1 (ih value (by simp [Expr.children]))
        (ih body (by simp [Expr.children]))
    | sequential span first second =>
      intro expected
      have hdues : (Expr.sequential span first second).dues = first.dues ++ second.dues := by
        simp [Expr.dues_eq (.sequential span first second), Expr.ownDues, Expr.children]
      rw [hdues]
      refine ((ih first (by simp [Expr.children])).value none).bind fun t => ?_
      refine (silent_warnIgnored _ _).before fun _ => ?_
      exact ((ih second (by simp [Expr.children])).value expected).andThen fun _ => silent_pure _
    | tuple span items =>
      intro expected
      rw [Expr.dues_eq]
      exact settle_pays span expected ((exprs_pay ih none).andThen fun _ => silent_pure _)
    | list span items =>
      intro expected
      rw [Expr.dues_eq]
      refine settle_pays span expected (silent_fresh.before fun element => ?_)
      exact (exprs_pay ih (some element)).andThen fun _ => silent_pure _
    | record span fields =>
      exact record_settles h fun f hf => ih f.2 (List.mem_map_of_mem hf)
    | paren span inner =>
      intro expected
      rw [hone rfl rfl]
      exact ih inner List.mem_cons_self expected
    | typed span inner written =>
      intro expected
      rw [hone rfl rfl]
      have hlabels := away_of_spares (List.forall_mem_append.mp h.landmarks).2
      refine settle_pays span expected ((annotation_pays written hlabels).bind fun t => ?_)
      exact (ih inner List.mem_cons_self (some t)).andThen fun _ => silent_pure _
    | error span => exact fun expected => settle_pays span expected (silent_pure _).pays

end Checker
end ScriptAnalyzer

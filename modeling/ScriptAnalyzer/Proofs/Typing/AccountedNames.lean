import ScriptAnalyzer.Proofs.Syntax.NestedTrees
import ScriptAnalyzer.Proofs.Syntax.ValidTrees
import ScriptAnalyzer.Proofs.Typing.DeclarationDues

/-!
The names of a file in the result of its check: each that is bound is declared once, each that is used is
looked up once or missing once, and each call is found once.
-/

namespace ScriptAnalyzer

theorem Span.Ascend.starts_nodup {place : Nat} {spans : List Span} (h : Ascend place spans) :
    (spans.map (·.start)).Nodup := by
  refine List.pairwise_map.mpr (h.pairwise.imp_of_mem fun hs _ hle heq => ?_)
  have := (h.of_mem hs).2
  omega

/-! The landmarks of parts -/

theorem Expr.landmarks_of_mem_preorder {e d : Expr} (h : d ∈ e.preorder) : d.landmarks ⊆ e.landmarks :=
  subset_of_mem_preorder (fun _ _ => landmarks_of_child) h

namespace Decl

mutual

theorem landmarks_of_mem_exprs {e : Expr} (d : Decl) (h : e ∈ d.exprs) : e.landmarks ⊆ d.landmarks := by
  match d, h with
  | .binding _ b, h =>
    exact List.subset_append_of_subset_right _ (Expr.landmarks_of_mem_preorder h)
  | .module _ name ds, h => exact List.subset_cons_of_subset _ (landmarks_of_mem_exprsOfAll ds h)
  | .expr _ _, h => exact Expr.landmarks_of_mem_preorder h

theorem landmarks_of_mem_exprsOfAll {e : Expr} (ds : List Decl) (h : e ∈ exprsOfAll ds) :
    e.landmarks ⊆ landmarksOfAll ds := by
  match ds, h with
  | d :: ds, h =>
    rcases List.mem_append.mp h with h | h
    · exact List.subset_append_of_subset_left _ (landmarks_of_mem_exprs d h)
    · exact List.subset_append_of_subset_right _ (landmarks_of_mem_exprsOfAll ds h)

end

end Decl

/-! Bound names -/

/-- The names that a binding binds: those of its pattern, and those of its parameters. -/
def LetHead.binds (head : LetHead) : List Ident := head.pattern.boundNames ++ Pattern.boundNamesOfAll head.params

/-- The names that an expression binds, without those below it. -/
def Expr.binds : Expr → List Ident
  | lambda _ params _ => Pattern.boundNamesOfAll params
  | letIn _ head _ _ => head.binds
  | _ => []

namespace Decl

mutual

/-- The names that the bindings, functions and parameters of a declaration bind. -/
def binds : Decl → List Ident
  | binding _ b => b.toLetHead.binds ++ b.body.preorder.flatMap Expr.binds
  | module _ _ ds => bindsOfAll ds
  | expr _ e => e.preorder.flatMap Expr.binds
  | «open» _ _ | type _ _ _ | directive _ _ | error _ => []

def bindsOfAll : List Decl → List Ident
  | [] => []
  | d :: ds => binds d ++ bindsOfAll ds

end

end Decl

namespace Pattern

mutual

theorem binding_mem_landmarks (p : Pattern) : ∀ n ∈ p.boundNames, .binding n ∈ p.landmarks := by
  match p with
  | .named _ n => simp [boundNames, landmarks]
  | .wildcard _ | .unit _ | .error _ => simp [boundNames]
  | .tuple _ items => exact binding_mem_landmarksOfAll items
  | .typed _ inner t => exact fun n hn => List.mem_append_left _ (binding_mem_landmarks inner n hn)

theorem binding_mem_landmarksOfAll (ps : List Pattern) :
    ∀ n ∈ boundNamesOfAll ps, .binding n ∈ landmarksOfAll ps := by
  match ps with
  | [] => exact nofun
  | p :: ps =>
    exact List.forall_mem_append.mpr
      ⟨fun n hn => List.mem_append_left _ (binding_mem_landmarks p n hn),
        fun n hn => List.mem_append_right _ (binding_mem_landmarksOfAll ps n hn)⟩

end

end Pattern

theorem LetHead.binding_mem_landmarks (head : LetHead) : ∀ n ∈ head.binds, .binding n ∈ head.landmarks :=
  List.forall_mem_append.mpr
    ⟨fun n hn => List.mem_append_left _ (List.mem_append_left _ (head.pattern.binding_mem_landmarks n hn)),
      fun n hn => List.mem_append_left _ (List.mem_append_right _ (Pattern.binding_mem_landmarksOfAll _ n hn))⟩

theorem Expr.binding_mem_landmarks (e : Expr) : ∀ n ∈ e.preorder.flatMap binds, .binding n ∈ e.landmarks := by
  intro n hn
  obtain ⟨d, hd, hn⟩ := List.mem_flatMap.mp hn
  refine landmarks_of_mem_preorder hd ?_
  cases d with
  | lambda span params body => exact List.mem_append_left _ (Pattern.binding_mem_landmarksOfAll params n hn)
  | letIn span head value body => exact List.mem_append_left _ (head.binding_mem_landmarks n hn)
  | _ => cases hn

namespace Decl

mutual

theorem binding_mem_landmarks (d : Decl) : ∀ n ∈ d.binds, .binding n ∈ d.landmarks := by
  match d with
  | .binding _ b =>
    exact List.forall_mem_append.mpr
      ⟨fun n hn => List.mem_append_left _ (b.toLetHead.binding_mem_landmarks n hn),
        fun n hn => List.mem_append_right _ (b.body.binding_mem_landmarks n hn)⟩
  | .module _ name ds => exact fun n hn => List.mem_cons_of_mem _ (binding_mem_landmarksOfAll ds n hn)
  | .expr _ e => exact e.binding_mem_landmarks
  | .open _ _ | .type _ _ _ | .directive _ _ | .error _ => exact nofun

theorem binding_mem_landmarksOfAll (ds : List Decl) : ∀ n ∈ bindsOfAll ds, .binding n ∈ landmarksOfAll ds := by
  match ds with
  | [] => exact nofun
  | d :: ds =>
    exact List.forall_mem_append.mpr
      ⟨fun n hn => List.mem_append_left _ (binding_mem_landmarks d n hn),
        fun n hn => List.mem_append_right _ (binding_mem_landmarksOfAll ds n hn)⟩

end

end Decl

/-! Bound names among the dues -/

theorem LetHead.Tidy.boundNames_eq {head : LetHead} (h : head.Tidy) : head.boundNames = head.pattern.boundNames := by
  unfold LetHead.boundNames
  split
  case isTrue hfunction =>
    have hnamed := h.named hfunction
    unfold LetHead.name?
    cases hpattern : head.pattern with
    | named span n => rfl
    | _ => rw [hpattern] at hnamed; cases hnamed
  case isFalse => rfl

theorem LetHead.Tidy.bound_mem {head : LetHead} (h : head.Tidy) : ∀ n ∈ head.binds, .bound n ∈ head.dues := by
  intro n hn
  rw [LetHead.dues, h.boundNames_eq]
  exact List.mem_map_of_mem hn

theorem Expr.bound_mem {e : Expr} (h : ∀ d ∈ e.preorder, d.Tidy) :
    ∀ n ∈ e.preorder.flatMap binds, .bound n ∈ e.dues := by
  intro n hn
  obtain ⟨d, hd, hn⟩ := List.mem_flatMap.mp hn
  refine List.mem_flatMap.mpr ⟨d, hd, ?_⟩
  cases d with
  | lambda span params body => exact List.mem_map_of_mem hn
  | letIn span head value body => exact (h _ hd).parts.2.1.bound_mem n hn
  | _ => cases hn

namespace Decl

theorem bindsOfAll_eq (ds : List Decl) : bindsOfAll ds = ds.flatMap binds := by
  induction ds with
  | nil => rfl
  | cons d ds ih => rw [bindsOfAll, ih, List.flatMap_cons]

theorem duesOfAll_eq (ds : List Decl) : duesOfAll ds = ds.flatMap dues := by
  induction ds with
  | nil => rfl
  | cons d ds ih => rw [duesOfAll, ih, List.flatMap_cons]

theorem bound_mem_ofAll {ds : List Decl} (h : ∀ d ∈ ds, ∀ n ∈ d.binds, .bound n ∈ d.dues) :
    ∀ n ∈ bindsOfAll ds, .bound n ∈ duesOfAll ds := by
  intro n hn
  rw [bindsOfAll_eq] at hn
  obtain ⟨d, hd, hn⟩ := List.mem_flatMap.mp hn
  rw [duesOfAll_eq]
  exact List.mem_flatMap.mpr ⟨d, hd, h d hd n hn⟩

theorem bound_mem {d : Decl} (h : d.Nested) : ∀ n ∈ d.binds, .bound n ∈ d.dues := by
  induction h with
  | binding hb =>
    exact List.forall_mem_append.mpr ⟨fun n hn => List.mem_append_left _ (hb.head.bound_mem n hn),
      fun n hn => List.mem_append_right _ (Expr.bound_mem hb.body.tidy n hn)⟩
  | module _ _ _ ih => exact bound_mem_ofAll ih
  | expr he => exact Expr.bound_mem he.tidy
  | «open» | type | directive | error => exact nofun

end Decl

/-! Names that are looked up, and calls -/

namespace Expr

/-- The place of a name as an expression. -/
def nameAt? : Expr → Option Span
  | ident n => some n.span
  | _ => none

/-- The places of the callee and the parentheses of a call. -/
def callAt? : Expr → Option (Span × Span)
  | call _ callee _ parens => some (callee.span, parens)
  | _ => none

end Expr

namespace Due

def use? : Due → Option Span
  | use n => some n.span
  | _ => none

theorem countP_isUseAt (x : Span) (dues : List Due) :
    dues.countP (isUseAt x) = (dues.filterMap use?).count x := by
  induction dues with
  | nil => rfl
  | cons d dues ih => cases d <;> simp [List.countP_cons, List.filterMap_cons, isUseAt, use?, List.count_cons, ih]

end Due

namespace Decl

variable {β : Type} {g : Due → Option β}

theorem filterMap_exprDues {f : Expr → Option β} (hf : ∀ e, e.ownDues.filterMap g = (f e).toList) (e : Expr) :
    e.dues.filterMap g = e.preorder.filterMap f := by
  rw [Expr.dues, List.filterMap_flatMap, List.filterMap_eq_flatMap_toList]
  exact List.flatMap_congr fun d _ => hf d

mutual

/-- What bindings bind is all that declarations add to the dues of their expressions. -/
theorem filterMap_dues (hg : ∀ n, g (.bound n) = none) {f : Expr → Option β}
    (hf : ∀ e, e.ownDues.filterMap g = (f e).toList) (d : Decl) : d.dues.filterMap g = d.exprs.filterMap f := by
  match d with
  | .binding _ b =>
    have hhead : b.toLetHead.dues.filterMap g = [] := List.filterMap_eq_nil_iff.mpr fun _ hd => by
      obtain ⟨n, -, rfl⟩ := List.mem_map.mp hd
      exact hg n
    rw [dues, List.filterMap_append, hhead, filterMap_exprDues hf, List.nil_append, exprs]
  | .module _ _ ds => exact filterMap_duesOfAll hg hf ds
  | .expr _ e => exact filterMap_exprDues hf e
  | .open _ _ | .type _ _ _ | .directive _ _ | .error _ => rfl

theorem filterMap_duesOfAll (hg : ∀ n, g (.bound n) = none) {f : Expr → Option β}
    (hf : ∀ e, e.ownDues.filterMap g = (f e).toList) (ds : List Decl) :
    (duesOfAll ds).filterMap g = (exprsOfAll ds).filterMap f := by
  match ds with
  | [] => rfl
  | d :: ds =>
    rw [duesOfAll, exprsOfAll, List.filterMap_append, List.filterMap_append, filterMap_dues hg hf d,
      filterMap_duesOfAll hg hf ds]

end

theorem calls_duesOfAll (ds : List Decl) :
    (duesOfAll ds).filterMap Due.call? = (exprsOfAll ds).filterMap Expr.callAt? := by
  refine filterMap_duesOfAll (fun _ => rfl) (fun e => ?_) ds
  cases e with
  | lambda _ params _ => exact Due.calls_bound _
  | letIn _ head _ _ => exact Due.calls_bound _
  | _ => rfl

theorem uses_duesOfAll (ds : List Decl) :
    (duesOfAll ds).filterMap Due.use? = (exprsOfAll ds).filterMap Expr.nameAt? := by
  have hbound (ns : List Ident) : (ns.map Due.bound).filterMap Due.use? = [] :=
    List.filterMap_eq_nil_iff.mpr fun _ hd => by
      obtain ⟨n, -, rfl⟩ := List.mem_map.mp hd
      rfl
  refine filterMap_duesOfAll (fun _ => rfl) (fun e => ?_) ds
  cases e with
  | lambda _ params _ => exact hbound _
  | letIn _ head _ _ => exact hbound _
  | _ => rfl

end Decl

namespace SyntaxFile

variable (path : Path) (text : Text) (kind : SourceKind) (defines : List String)

/-- No two names that are expressions stand at the same place. -/
theorem namesAt_nodup : ((Decl.exprsOfAll (parse path text kind defines).decls).filterMap Expr.nameAt?).Nodup := by
  refine List.Nodup.sublist ?_ (lastNames_nodup path text kind defines)
  generalize Decl.exprsOfAll (parse path text kind defines).decls = es
  induction es with
  | nil => exact .slnil
  | cons e es ih =>
    cases e with
    | ident n => exact ih.cons_cons n.span
    | _ =>
      refine (show (es.filterMap Expr.nameAt?).Sublist _ from ih).trans ?_
      rw [List.filterMap_cons]
      split
      · exact List.Sublist.refl _
      · exact List.sublist_cons_self _ _

/-- Two names or dots do not start at the same place. -/
theorem landmark_of_start {m m' : Landmark} (hm : m ∈ (parse path text kind defines).landmarks)
    (hm' : m' ∈ (parse path text kind defines).landmarks) (hstart : m.source.2.start = m'.source.2.start) :
    m = m' := by
  have hstarts := (landmarks_ascend path text kind defines).starts_nodup
  rw [List.map_map] at hstarts
  exact List.inj_on_of_nodup_map hstarts hm hm' hstart

/-- At a place where no other name and no brace starts there is nothing that is not looked up or bound. -/
theorem clear_of_away {x : Span}
    (hnames : ∀ m ∈ Decl.landmarksOfAll (parse path text kind defines).decls, m.Spares x)
    (hbraces : ∀ t ∈ Token.tokens text, t.1 = .punct .lbrace → t.2.start ≠ x.start) :
    let f := parse path text kind defines
    Clear x (Decl.landmarksOfAll f.decls) (Decl.exprsOfAll f.decls) := by
  refine ⟨hnames, fun n hn => ?_, fun e he => ?_⟩
  · have hspelled := landmark_spelled path text kind defines (List.mem_append_right _ hn) (n := n) rfl
    exact ⟨hspelled.nonempty, hspelled.undotted⟩
  · have hbraced := (parse_fits path text kind defines).2.2 e he
    cases e with
    | record span fields =>
      obtain ⟨t, ht, hbrace, htstart⟩ := hbraced
      have htoken := (significantTokens_sublist text defines).subset (List.mem_map_of_mem ht)
      exact fun hstart => hbraces _ htoken hbrace (htstart.trans hstart)
    | _ => trivial

theorem clear_of_landmark {m : Landmark} {n : Ident}
    (hm : m ∈ Decl.landmarksOfAll (parse path text kind defines).decls) (hn : m = .binding n ∨ m = .use n) :
    let f := parse path text kind defines
    Clear n.span (Decl.landmarksOfAll f.decls) (Decl.exprsOfAll f.decls) := by
  let f := parse path text kind defines
  have hsource : m.source = n.source := by rcases hn with rfl | rfl <;> rfl
  have hall {m' : Landmark} (hm' : m' ∈ Decl.landmarksOfAll f.decls) : m' ∈ f.landmarks :=
    List.mem_append_right _ hm'
  have haway {m' : Landmark} {n' : Ident} (hm' : m' ∈ Decl.landmarksOfAll f.decls)
      (hn' : m'.source = n'.source) (hne : m ≠ m') : n'.Away n.span := by
    intro hstart
    refine hne (landmark_of_start path text kind defines (hall hm) (hall hm') ?_)
    rw [hsource, hn']
    exact hstart.symm
  refine clear_of_away path text kind defines (fun m' hm' => ?_) fun t ht hbrace hstart => ?_
  · cases m' with
    | label n' => exact haway hm' rfl (by rcases hn with rfl | rfl <;> nofun)
    | member n' => exact haway hm' rfl (by rcases hn with rfl | rfl <;> nofun)
    | binding _ | use _ | dot _ => trivial
  · have hname := (landmarks_sublist path text kind defines).subset (List.mem_map_of_mem (hall hm))
    have hstarts := (Token.tokensFrom_ascend 0 text).starts_nodup
    rw [hsource] at hname
    rw [List.map_map] at hstarts
    obtain rfl := List.inj_on_of_nodup_map hstarts ht hname hstart
    cases hbrace

/-- Behind the text there is nothing. -/
theorem clear_behind : let f := parse path text kind defines
    Clear (.empty (text.byteSize + 1)) (Decl.landmarksOfAll f.decls) (Decl.exprsOfAll f.decls) := by
  have hbefore {t : Token × Span} (ht : t ∈ Token.tokens text) : t.2.start ≠ text.byteSize + 1 := by
    have hvalid := Token.validIn_of_mem ht
    have := hvalid.ordered
    have := hvalid.inside
    omega
  refine clear_of_away path text kind defines (fun m hm => ?_) fun t ht _ => hbefore ht
  have htoken := (landmarks_sublist path text kind defines).subset
    (List.mem_map_of_mem (List.mem_append_right _ hm))
  cases m with
  | label n | member n => exact hbefore htoken
  | binding _ | use _ | dot _ => trivial

end SyntaxFile

/-! Results -/

namespace CheckResult

/-- How often a name is found to be declared at the place. -/
def definitionsAt (r : CheckResult) (x : Span) : Nat :=
  r.occurrences.countP fun o => o.isDefinition && o.span == x

/-- How often a name is found to be used at the place. -/
def usesAt (r : CheckResult) (x : Span) : Nat :=
  r.occurrences.countP fun o => !o.isDefinition && o.span == x

/-- How often a name is reported at the place as one that means nothing. -/
def missesAt (r : CheckResult) (x : Span) : Nat :=
  r.diagnostics.countP fun d => d.code == "E0039" && d.span == x

end CheckResult

namespace CheckerState

variable {s : CheckerState} (file : SyntaxFile) (context : Context) (options : WarningOptions)

theorem Grounded.occurrence (h : s.Grounded) {m : Mention} (hm : m ∈ s.records.mentions) :
    ∃ symbol, s.occurrence? m = some ⟨m.span, symbol, m.isDefinition⟩ := by
  have htarget : ∃ symbol, s.targetSymbol? m.target = some symbol := by
    cases htarget : m.target with
    | fixed symbol => exact ⟨symbol, rfl⟩
    | binder i =>
      have hi := h m hm i htarget
      exact ⟨_, by rw [targetSymbol?, Array.getElem?_eq_getElem hi]; rfl⟩
  obtain ⟨symbol, hsymbol⟩ := htarget
  exact ⟨symbol, by rw [occurrence?, hsymbol]; rfl⟩

/-- Each mention leads to an occurrence. -/
theorem Grounded.countP_occurrences (h : s.Grounded) (p : Span → Bool → Bool) :
    (s.result file context options).occurrences.countP (fun o => p o.span o.isDefinition) =
      s.records.mentions.countP fun m => p m.span m.isDefinition := by
  have hlist (ms : List Mention) (hms : ∀ m ∈ ms, m ∈ s.records.mentions) :
      (ms.filterMap s.occurrence?).countP (fun o => p o.span o.isDefinition) =
        ms.countP fun m => p m.span m.isDefinition := by
    induction ms with
    | nil => rfl
    | cons m ms ih =>
      obtain ⟨hm, hms⟩ := List.forall_mem_cons.mp hms
      obtain ⟨symbol, hoccurrence⟩ := h.occurrence hm
      rw [List.filterMap_cons_some hoccurrence, List.countP_cons, List.countP_cons, ih hms]
  exact (hlist _ fun m hm => List.mem_reverse.mp hm).trans (List.countP_reverse ..)

theorem Grounded.definitionsAt_result (h : s.Grounded) (x : Span) :
    (s.result file context options).definitionsAt x = s.definitionsAt x :=
  h.countP_occurrences file context options fun span isDefinition => isDefinition && span == x

theorem Grounded.usesAt_result (h : s.Grounded) (x : Span) :
    (s.result file context options).usesAt x = s.usesAt x :=
  h.countP_occurrences file context options fun span isDefinition => !isDefinition && span == x

theorem isWarning_of_isMiss {e : TypeError} (h : e.isMiss = true) : e.cause.isWarning = false := by
  have hcode : e.cause.code = "E0039" := by simpa [TypeError.isMiss] using h
  cases hcause : e.cause <;> simp_all [TypeError.Cause.isWarning, TypeError.Cause.code]

theorem reports_of_isMiss {e : TypeError} (h : e.isMiss = true) :
    (!options.suppresses e.cause) = true := by
  simp [WarningOptions.suppresses, isWarning_of_isMiss h]

theorem seeks_of_isMiss {e : TypeError} (h : e.isMiss = true) : options.seeks e.cause = true := by
  have hwarning := isWarning_of_isMiss h
  cases hcause : e.cause <;> simp_all [TypeError.Cause.isWarning, WarningOptions.seeks]

end CheckerState

namespace SyntaxFile

variable (path : Path) (text : Text) (kind : SourceKind) (defines : List String) (context : Context)

open CheckerState

/-- How often things are on record at a name that is bound or used, behind the last declaration. -/
theorem endState_counts {m : Landmark} {n : Ident}
    (hm : m ∈ Decl.landmarksOfAll (parse path text kind defines).decls) (hn : m = .binding n ∨ m = .use n) :
    let f := parse path text kind defines
    let s := f.endState context
    let uses := ((Decl.exprsOfAll f.decls).filterMap Expr.nameAt?).count n.span
    s.usesAt n.span ≤ uses ∧ s.missesAt n.span ≤ uses ∧
      ("System" ∈ context.libraryNames → f.HasPlainName → uses ≤ s.usesAt n.span + s.missesAt n.span) ∧
      (Decl.duesOfAll f.decls).countP (·.isBoundAt n.span) ≤ s.definitionsAt n.span ∧
      s.definitionsAt n.span = s.declaredAt.count n.span := by
  intro f s uses
  obtain ⟨s₀, hstart, hrooted, hend⟩ :=
    f.endState_discharges context (clear_of_landmark path text kind defines hm hn)
  have hcount : (Decl.duesOfAll f.decls).countP (·.isUseAt n.span) = uses := by
    rw [Due.countP_isUseAt, Decl.uses_duesOfAll]
  have huses : s₀.usesAt n.span = 0 := Nat.le_zero.mp hstart.uses
  have hmisses : s₀.missesAt n.span = 0 := Nat.le_zero.mp hstart.misses
  have hdeclared : s₀.definitionsAt n.span = s₀.declaredAt.count n.span := by
    have h := hstart.declared
    rw [show (initial context.libraryNames).declaredAt.count n.span = 0 from rfl,
      show (initial context.libraryNames).definitionsAt n.span = 0 from rfl] at h
    omega
  have huses' := hend.uses
  have hmisses' := hend.misses
  have hdefinitions := hend.definitions
  have hdeclared' := hend.declared
  rw [hcount, huses, Nat.zero_add] at huses'
  rw [hcount, hmisses, Nat.zero_add] at hmisses'
  refine ⟨huses', hmisses', fun hsystem hname => ?_, Nat.le_of_add_left_le hdefinitions, ?_⟩
  · have haccounts := hend.accounts (hrooted hsystem hname)
    rwa [hcount, huses, hmisses, Nat.zero_add] at haccounts
  · rw [hdeclared] at hdeclared'
    exact Nat.add_right_cancel (hdeclared'.trans (Nat.add_comm _ _))

theorem endState_grounded : ((parse path text kind defines).endState context).Grounded := by
  obtain ⟨s, hstart, -, hend⟩ :=
    (parse path text kind defines).endState_discharges context (clear_behind path text kind defines)
  exact hend.grounded (hstart.grounded nofun)

theorem endState_calls : let f := parse path text kind defines
    (f.endState context).callPlaces.Perm ((Decl.exprsOfAll f.decls).filterMap Expr.callAt?) := by
  obtain ⟨s, hstart, -, hend⟩ :=
    (parse path text kind defines).endState_discharges context (clear_behind path text kind defines)
  have hcalls : s.callPlaces = [] := List.perm_nil.mp hstart.calls
  have hperm := hend.calls
  rw [hcalls, List.append_nil, Decl.calls_duesOfAll] at hperm
  exact hperm

/-- Nothing is declared where a name is used. -/
theorem declaredAt_use {n : Ident} (hn : .use n ∈ Decl.landmarksOfAll (parse path text kind defines).decls) :
    ((parse path text kind defines).endState context).declaredAt.count n.span = 0 := by
  let f := parse path text kind defines
  have hcount := (endState_declares path text kind defines context).count n.span
  refine Nat.le_zero.mp (Nat.le_trans hcount (Nat.le_of_eq (Nat.add_eq_zero_iff.mpr ⟨?_, rfl⟩)))
  refine List.count_eq_zero.mpr fun hmem => ?_
  rcases List.mem_append.mp hmem with hheader | hbound
  · obtain ⟨name, hname, hspan⟩ := Option.map_eq_some_iff.mp (Option.mem_toList.mp hheader)
    refine LongIdent.span_ne_of_away (fun part hpart hstart => ?_) hspan
    have hlabel : Landmark.label part ∈ f.landmarks := by
      refine List.mem_append_left _ ?_
      rw [show f.header = some name from hname]
      exact List.mem_map_of_mem hpart
    have hsame := landmark_of_start path text kind defines hlabel (List.mem_append_right _ hn) hstart
    cases hsame
  · obtain ⟨m, hm, hspan⟩ := List.mem_filterMap.mp hbound
    cases m with
    | binding n' =>
      have hsame := landmark_unique path text kind defines (List.mem_append_right _ hm)
        (List.mem_append_right _ hn) (Option.some.inj hspan)
      cases hsame
    | use _ | dot _ | member _ | label _ => cases hspan

/-- In a text without syntax errors every name that is bound is declared once. -/
theorem definitionsAt_bound (hclean : (parse path text kind defines).errors = []) {n : Ident}
    (hn : n ∈ Decl.bindsOfAll (parse path text kind defines).decls) :
    ((parse path text kind defines).endState context).definitionsAt n.span = 1 := by
  obtain ⟨-, -, -, hbound, hdeclared⟩ := endState_counts path text kind defines context
    (Decl.binding_mem_landmarksOfAll _ n hn) (.inl rfl)
  have hnested := (clean_nests path text kind defines hclean).2
  have hdue := Decl.bound_mem_ofAll (fun d hd => Decl.bound_mem (hnested d hd)) n hn
  have hpos : 0 < (Decl.duesOfAll (parse path text kind defines).decls).countP (·.isBoundAt n.span) :=
    List.countP_pos_iff.mpr ⟨_, hdue, by simp [Due.isBoundAt]⟩
  have hone := List.nodup_iff_count_le_one.mp (declaredAt_nodup path text kind defines context).1 n.span
  omega

/-- The options leave out no name that means nothing. -/
theorem missesAt_check (f : SyntaxFile) (context : Context) (options : WarningOptions) (x : Span) :
    (f.check context options).missesAt x = (f.endState context).missesAt x := by
  rw [CheckResult.missesAt, check_diagnostics, WarningOptions.diagnostics,
    (List.mergeSort_perm _ _).countP_eq, List.countP_map, List.countP_filter, List.countP_filter,
    List.countP_reverse, CheckerState.missesAt, List.countP_filter]
  refine List.countP_congr fun e _ => ?_
  have hreports := reports_of_isMiss options (e := e)
  have hseeks := seeks_of_isMiss options (e := e)
  simp only [Function.comp, Diagnostic.located, Bool.and_eq_true]
  exact ⟨fun h => ⟨h.1.1.2, h.1.1.1⟩, fun h => ⟨⟨⟨h.2, h.1⟩, hreports h.2⟩, hseeks h.2⟩⟩

/-- Every name that is an expression is used once, or it is missing once. -/
theorem usesAt_name (hsystem : "System" ∈ context.libraryNames)
    (hname : (parse path text kind defines).HasPlainName) {n : Ident}
    (hn : .ident n ∈ Decl.exprsOfAll (parse path text kind defines).decls) :
    let s := (parse path text kind defines).endState context
    s.definitionsAt n.span = 0 ∧ (s.usesAt n.span = 1 ∨ s.usesAt n.span = 0 ∧ s.missesAt n.span = 1) := by
  have huse : .use n ∈ Decl.landmarksOfAll (parse path text kind defines).decls :=
    Decl.landmarks_of_mem_exprsOfAll _ hn (List.mem_singleton_self _)
  obtain ⟨huses, hmisses, haccounts, -, hdeclared⟩ :=
    endState_counts path text kind defines context huse (.inr rfl)
  have hcount : ((Decl.exprsOfAll (parse path text kind defines).decls).filterMap Expr.nameAt?).count n.span = 1 :=
    List.count_eq_one_of_mem (namesAt_nodup path text kind defines) (List.mem_filterMap.mpr ⟨_, hn, rfl⟩)
  have haccounts := haccounts hsystem hname
  rw [hcount] at huses hmisses haccounts
  exact ⟨hdeclared.trans (declaredAt_use path text kind defines context huse), by omega⟩

end SyntaxFile

/-- Every name is accounted for once. Each name that a pattern binds in a text without syntax errors is declared
once. Each name that is an expression is used once, or there is nothing at its place but one error that it means
nothing, as long as the file's own name leaves no segment empty. Each call is found once. -/
theorem checkText_names (path : Path) (text : Text) (project : ProjectOptions)
    (options : Option WarningOptions) : let r := checkText path text project options
    (r.file.errors = [] → ∀ n ∈ Decl.bindsOfAll r.file.decls, r.definitionsAt n.span = 1) ∧
      (r.file.HasPlainName → ∀ n, .ident n ∈ Decl.exprsOfAll r.file.decls → r.usesAt n.span = 1 ∨
        (∀ o ∈ r.occurrences, o.span ≠ n.span) ∧ r.missesAt n.span = 1) ∧
      (r.calls.map fun c => (c.callee, c.parens)).Perm ((Decl.exprsOfAll r.file.decls).filterMap Expr.callAt?) := by
  let context := Context.resolve path text project
  let f := SyntaxFile.parse path text context.kind context.defines
  let s := f.endState context
  let options := options.getD context.warningOptions
  have hgrounded : s.Grounded := SyntaxFile.endState_grounded path text context.kind context.defines context
  have hr : f.check context options = { s.result f context options with
      diagnostics := (f.check context options).diagnostics } := f.check_eq context options
  have hdefined (x : Span) : (f.check context options).definitionsAt x = s.definitionsAt x := by
    rw [hr]
    exact hgrounded.definitionsAt_result f context options x
  have hused (x : Span) : (f.check context options).usesAt x = s.usesAt x := by
    rw [hr]
    exact hgrounded.usesAt_result f context options x
  have hsystem := Context.system_mem_libraryNames path text project
  refine ⟨fun hclean n hn => ?_, fun hname n hn => ?_, ?_⟩
  · exact (hdefined n.span).trans
      (SyntaxFile.definitionsAt_bound path text context.kind context.defines context hclean hn)
  · obtain ⟨hdefinitions, huses | ⟨huses, hmisses⟩⟩ :=
      SyntaxFile.usesAt_name path text context.kind context.defines context hsystem hname hn
    · exact .inl ((hused n.span).trans huses)
    · refine .inr ⟨fun o ho hspan => ?_, (f.missesAt_check context options n.span).trans hmisses⟩
      have hdefinitions := (hdefined n.span).trans hdefinitions
      have huses := (hused n.span).trans huses
      have hnone := List.countP_eq_zero.mp hdefinitions o ho
      have hnone' := List.countP_eq_zero.mp huses o ho
      cases hdefinition : o.isDefinition <;> simp [hdefinition, hspan] at hnone hnone'
  · have hcalls := SyntaxFile.endState_calls path text context.kind context.defines context
    refine List.Perm.trans ?_ hcalls
    have hfound : (f.check context options).calls = s.records.calls.reverse := congrArg CheckResult.calls hr
    exact hfound ▸ (List.reverse_perm _).map _

/-- A function with its parameter, a name that is found and one that is not. -/
theorem addition_names : let r := checkText ⟨"a.gl"⟩ "let f x = x + y".toList {} none
    r.file.errors = [] ∧ r.file.HasPlainName ∧ r.definitionsAt ⟨6, 7⟩ = 1 ∧
      (∀ n, .ident n ∈ Decl.exprsOfAll r.file.decls → r.usesAt n.span = 1 ∨
        (∀ o ∈ r.occurrences, o.span ≠ n.span) ∧ r.missesAt n.span = 1) ∧ r.calls.map (·.callee) = [] := by
  obtain ⟨hbound, hused, -⟩ := checkText_names ⟨"a.gl"⟩ "let f x = x + y".toList {} none
  have hclean : (checkText ⟨"a.gl"⟩ "let f x = x + y".toList {} none).file.errors = [] :=
    List.isEmpty_iff.mp (by decide +kernel)
  have hplain : (checkText ⟨"a.gl"⟩ "let f x = x + y".toList {} none).file.HasPlainName := by
    intro path hpath
    have hname : (checkText ⟨"a.gl"⟩ "let f x = x + y".toList {} none).file.moduleName? = some "A" := by
      decide +kernel
    rw [hname] at hpath
    obtain rfl := Option.mem_some.mp hpath
    decide +kernel
  exact ⟨hclean, hplain, hbound hclean ⟨"x", ⟨6, 7⟩⟩ (by decide +kernel), hused hplain, by decide +kernel⟩

/-- In a file whose module has a name with an empty segment, a module in front of a dot may be found without
a trace. -/
theorem emptySegment_untraced : let r := checkText ⟨"a..b.gl"⟩ "let v = 1\nlet w = b.v".toList {} none
    ⟨18, 19⟩ ∈ (Decl.exprsOfAll r.file.decls).filterMap Expr.nameAt? ∧ r.usesAt ⟨18, 19⟩ = 0 ∧
      r.missesAt ⟨18, 19⟩ = 0 := by
  decide +kernel

end ScriptAnalyzer

import Mathlib.Data.List.Flatten
import ScriptAnalyzer.Proofs.Typing.DeclarationDues
import ScriptAnalyzer.Proofs.Typing.ExpressionLocals
import ScriptAnalyzer.Proofs.Typing.Provenance

/-!
Warnings about names that are not used. Main statement: they stand, each once, at the names that `let`s in
expressions bind and no name means, unless such a name starts with an underscore.
-/

namespace ScriptAnalyzer

namespace Checker

open CheckerState

variable {α β : Type} {p : Checker α} {f : α → Checker β} {ns ns' : List Ident}

/-- The names that come into scope in this part of the checker go out of scope again, except for some new
binders, and are warned about unless they were used. -/
def Retires (p : Checker α) (ns : List Ident) : Prop :=
  ∀ s : CheckerState, s.Marked → p.Yields s fun _ s' => s'.Marked ∧ s.Retires ns s'

theorem Confines.retires (hp : p.Confines ns) : p.Retires ns := fun s hs =>
  (hp s hs).mono fun _ _ h => ⟨h.1, h.2.toRetires⟩

theorem Silent.retires (hp : Silent p) : p.Retires [] := hp.confines.retires

theorem Retires.bind (hp : p.Retires ns) (hf : ∀ a, (f a).Retires ns') :
    (p >>= f).Retires (ns ++ ns') := fun s hs =>
  (hp s hs).bind fun a s₁ h₁ => (hf a s₁ h₁.1).mono fun _ _ h₂ => ⟨h₂.1, h₁.2.trans h₂.2⟩

theorem Retires.andThen (hp : p.Retires ns) (hf : ∀ a, (f a).Retires []) : (p >>= f).Retires ns := by
  simpa using hp.bind hf

theorem Retires.getBind {f : CheckerState → Checker β} (hf : ∀ s, (f s).Retires ns) :
    (get >>= f).Retires ns :=
  fun s => hf s s

theorem Retires.withScope (hp : p.Retires ns) : (withScope p).Retires ns := by
  intro s hs
  simp only [Checker.withScope, yields_bind, yields_get, yields_modify, yields_pure]
  exact (hp s hs).mono fun _ s' h => ⟨h.1.leave hs h.2.size_le, h.2.leave hs⟩

/-! Declarations -/

theorem publish_retires (b : Binder) : (publish b).Retires [] := fun _ hs =>
  ⟨hs.of_same rfl rfl rfl, .of_same rfl rfl rfl rfl⟩

theorem publishAll_retires (bound : List Nat) (declared : List String) :
    (publishAll bound declared).Retires [] := by
  induction bound generalizing declared with
  | nil => exact (silent_pure _).retires
  | cons i bound ih =>
    refine (silent_binderAt i).retires.bind fun _ => ?_
    split
    · exact ih declared
    · refine .getBind fun s => ?_
      split
      · exact (report_confines _ rfl).retires.bind fun _ => (publish_retires _).bind fun _ => ih _
      · exact (publish_retires _).bind fun _ => ih _

theorem clearTypeVars_retires : (modify fun s => { s with typeVars := [] } : Checker Unit).Retires [] :=
  fun _ hs => ⟨hs.of_same rfl rfl rfl, .of_same rfl rfl rfl rfl⟩

theorem checkModuleBinding_retires (b : Binding) (stop : Nat) (declared : List String) :
    (checkModuleBinding b stop declared).Retires b.body.locals := by
  refine clearTypeVars_retires.bind fun _ => ?_
  exact (moduleBinding_brings b stop).confines.retires.andThen fun bound => publishAll_retires bound declared

theorem checkOpen_retires (span : Span) (name : LongIdent) (stop : Nat) :
    (checkOpen span name stop).Retires [] := by
  refine .getBind fun s => ?_
  split
  · exact (report_confines _ rfl).retires
  · exact (mentionSegments_confines _ _).retires.bind fun _ s hs =>
      ⟨hs.of_same rfl rfl rfl, .of_same rfl rfl rfl rfl⟩

theorem enterModule_retires (path : String) (name : Option Span) (region : Span) :
    (enterModule path name region).Retires [] := by
  intro s hs
  refine (enterModule_enters path name region s).mono ?_
  rintro _ _ rfl
  cases name with
  | none => exact ⟨hs.of_same rfl rfl rfl, .of_same rfl rfl rfl rfl⟩
  | some span => exact ⟨hs.mention rfl rfl rfl, .of_same rfl rfl rfl rfl⟩

theorem recordFields_confines (path : String) (fields : List (Ident × TypeExpr)) :
    (recordFields path fields).Confines [] := by
  induction fields with
  | nil => exact (silent_pure _).confines
  | cons field fields ih =>
    refine (annotation_confines field.2).bind fun t => (declare_confines _ _).bind fun _ => ?_
    exact ih.andThen fun _ => (silent_pure _).confines

theorem checkType_retires (name : Ident) (body : TypeBody) : (checkType name body).Retires [] := by
  refine clearTypeVars_retires.bind fun _ => .getBind fun s => ?_
  have hentities (g : Entities → Entities) :
      (modify fun s => { s with entities := g s.entities } : Checker Unit).Retires [] := fun _ hs =>
    ⟨hs.of_same rfl rfl rfl, .of_same rfl rfl rfl rfl⟩
  cases body with
  | record fields =>
    refine (hentities (·.declare _)).bind fun _ => (recordFields_confines _ _).retires.bind fun members => ?_
    refine (hentities (·.modifyDeclared _ _)).bind fun _ => .getBind fun s => ?_
    split
    · exact (declare_confines _ _).retires
    · exact (silent_pure _).retires
  | abbreviation written =>
    refine (annotation_confines written).retires.bind fun t => (declare_confines _ _).retires.bind fun _ => ?_
    exact fun _ hs => ⟨hs.of_same rfl rfl rfl, .of_same rfl rfl rfl rfl⟩

mutual

theorem decl_retires (kind : SourceKind) (stop : Nat) (d : Decl) (declared : List String) :
    (decl kind stop d declared).Retires (d.exprs.flatMap Expr.ownLocals) := by
  match d with
  | .binding span b => exact checkModuleBinding_retires b stop declared
  | .open span name => exact (checkOpen_retires span name stop).andThen fun _ => (silent_pure _).retires
  | .module span name members =>
    refine (Retires.withScope (.getBind fun s => ?_)).andThen fun _ => (silent_pure _).retires
    exact (enterModule_retires _ _ _).bind fun _ => decls_retires kind span.stop members []
  | .type span name body => exact (checkType_retires name body).andThen fun _ => (silent_pure _).retires
  | .expr span e =>
    refine ((expr_confines e).value none).retires.andThen fun t => Silent.retires ?_
    split
    · exact (silent_warnIgnored _ _).bind fun _ => silent_pure _
    · exact silent_pure _
  | .directive _ _ | .error _ => exact (silent_pure _).retires

theorem decls_retires (kind : SourceKind) (stop : Nat) (ds : List Decl) (declared : List String) :
    (decls kind stop ds declared).Retires ((Decl.exprsOfAll ds).flatMap Expr.ownLocals) := by
  match ds with
  | [] => exact (silent_pure _).retires
  | d :: ds =>
    rw [Decl.exprsOfAll, List.flatMap_append]
    exact (decl_retires kind stop d declared).bind (decls_retires kind stop ds)

end

end Checker

namespace SyntaxFile

/-- The names that the `let`s in the expressions of the file bind. -/
def locals (f : SyntaxFile) : List Ident := (Decl.exprsOfAll f.decls).flatMap Expr.ownLocals

end SyntaxFile

namespace Checker

theorem file_retires (f : SyntaxFile) (context : Context) : (file f context).Retires f.locals := by
  refine (silent_checkReferences f context).retires.bind fun _ => ?_
  refine (silent_forM (fun p => silent_report _ rfl) _).retires.bind fun _ => ?_
  dsimp only
  split
  · exact (enterModule_retires _ _ _).bind fun _ => decls_retires _ _ _ _
  · exact decls_retires _ _ _ _

end Checker

/-! Places -/

theorem LetHead.boundNames_sublist (head : LetHead) :
    (head.boundNames.map (·.span)).Sublist (head.landmarks.filterMap Landmark.boundAt) := by
  rw [head.boundAt_landmarks]
  have hnames : head.boundNames.Sublist head.pattern.boundNames := head.early_late ▸ head.early_late_sublist
  exact (hnames.map _).trans (List.sublist_append_left _ _)

/-- The places of the names that `let`s bind are among those of all names that are bound. -/
theorem Expr.locals_sublist (e : Expr) : (e.locals.map (·.span)).Sublist e.boundAt := by
  induction e using children_induction with
  | step e ih =>
    rw [locals_eq, List.map_append, List.map_flatMap]
    have hchildren : (e.children.flatMap fun c => c.locals.map (·.span)).Sublist (e.children.flatMap boundAt) :=
      .flatMap_right _ ih
    cases e with
    | ident n => exact .slnil
    | member span dot target name =>
      rw [boundAt_member]
      simpa [ownLocals, children] using hchildren
    | lambda span params body =>
      rw [boundAt_lambda]
      refine List.Sublist.trans ?_ (List.sublist_append_right _ _)
      simpa [ownLocals, children] using hchildren
    | letIn span head value body =>
      rw [boundAt_letIn]
      refine head.boundNames_sublist.append ?_
      simpa [children] using hchildren
    | _ =>
      rw [boundAt_of_isPlain rfl]
      exact hchildren

mutual

theorem Decl.count_names (d : Decl) (x : Span) : (d.moduleNames.map (·.span)).count x +
    ((d.exprs.flatMap Expr.ownLocals).map (·.span)).count x ≤
      (d.landmarks.filterMap Landmark.boundAt).count x := by
  match d with
  | .binding span b =>
    rw [landmarks, Binding.landmarks, List.filterMap_append, List.count_append]
    exact Nat.add_le_add (b.toLetHead.boundNames_sublist.count_le x) (b.body.locals_sublist.count_le x)
  | .module span name members =>
    rw [landmarks, List.filterMap_cons]
    exact (count_namesOfAll members x).trans List.count_le_count_cons
  | .expr span e =>
    rw [moduleNames, List.map_nil, List.count_nil, Nat.zero_add]
    exact e.locals_sublist.count_le x
  | .open _ _ | .type _ _ _ | .directive _ _ | .error _ => exact Nat.zero_le _

theorem Decl.count_namesOfAll (ds : List Decl) (x : Span) : ((Decl.moduleNamesOfAll ds).map (·.span)).count x +
    (((Decl.exprsOfAll ds).flatMap Expr.ownLocals).map (·.span)).count x ≤
      ((Decl.landmarksOfAll ds).filterMap Landmark.boundAt).count x := by
  match ds with
  | [] => exact Nat.zero_le _
  | d :: ds =>
    have hd := count_names d x
    have hds := count_namesOfAll ds x
    simp only [moduleNamesOfAll, exprsOfAll, landmarksOfAll, List.flatMap_append, List.map_append,
      List.filterMap_append, List.count_append]
    omega

end

/-- The names that `let`s bind stand at different places, none of them that of a name of a module. -/
theorem SyntaxFile.locals_nodup (path : Path) (text : Text) (kind : SourceKind) (defines : List String) :
    ((parse path text kind defines).locals.map (·.span)).Nodup ∧
      ∀ n ∈ (parse path text kind defines).locals, ¬(parse path text kind defines).BindsAt n.span := by
  have hone (x : Span) := Nat.le_trans (Decl.count_namesOfAll (parse path text kind defines).decls x)
    (List.nodup_iff_count_le_one.mp (bound_nodup path text kind defines).of_append_right x)
  refine ⟨List.nodup_iff_count_le_one.mpr fun x => ?_, ?_⟩
  · exact Nat.le_of_add_left_le (hone x)
  · rintro n hn ⟨n', hn', hspan⟩
    have hlocal : 0 < ((parse path text kind defines).locals.map (·.span)).count n.span :=
      List.count_pos_iff.mpr (List.mem_map_of_mem hn)
    have hmodule : 0 < ((Decl.moduleNamesOfAll (parse path text kind defines).decls).map (·.span)).count n.span :=
      List.count_pos_iff.mpr (List.mem_map.mpr ⟨n', hn', hspan⟩)
    have := hone n.span
    rw [locals] at hlocal
    omega

/-! Results -/

/-- Whether a name is found that is no declaration and means what is declared as this name. -/
def CheckResult.isUsed (r : CheckResult) (n : Ident) : Bool :=
  r.occurrences.any fun o => !o.isDefinition && o.symbol.span == some n.span

namespace CheckerState

variable {s : CheckerState} {is : List Nat} {ns : List Ident}

theorem Holds.warnings_span (h : s.Holds is ns) {used : Ident → Bool}
    (hused : ∀ n ∈ ns, ∀ (i : Nat) (b : Binder), s.binders[i]? = some b → b.span = n.span → b.used = used n) :
    (s.warnings is).map (·.span) =
      (ns.filter fun n => !isUnderscored n.text && !used n).map (·.span) := by
  induction h with
  | nil => rfl
  | @cons i n is ns hi hrest ih =>
    obtain ⟨b, hb, hname, hspan⟩ := hi
    obtain ⟨hn, hns⟩ := List.forall_mem_cons.mp hused
    have hwarnings : s.warnings (i :: is) = b.warning?.toList ++ s.warnings is := by
      rw [warnings, List.filterMap_cons, hb, Option.bind_some, ← warnings]
      cases b.warning? <;> rfl
    rw [hwarnings, List.map_append, ih hns, Binder.warning?, hname, hn i b hb hspan, List.filter_cons]
    cases isUnderscored n.text <;> cases used n <;> simp [hspan]

end CheckerState

namespace SyntaxFile

open CheckerState

variable (path : Path) (text : Text) (kind : SourceKind) (defines : List String) (context : Context)

theorem endState_retires (f : SyntaxFile) (context : Context) :
    (f.endState context).Marked ∧ (CheckerState.initial context.libraryNames).Retires f.locals (f.endState context) :=
  Checker.file_retires f context _ ⟨nofun, nofun, nofun⟩

/-- A binder of a local name is marked as used if and only if the result has a use of the name. -/
theorem isUsed_local {n : Ident} (hn : n ∈ (parse path text kind defines).locals) {i : Nat} {b : Binder} :
    let f := parse path text kind defines
    let s := f.endState context
    ∀ options, s.binders[i]? = some b → b.span = n.span → b.used = (s.result f context options).isUsed n := by
  intro f s options hb hspan
  obtain ⟨hnodup, hlocated⟩ := declaredAt_nodup path text kind defines context
  have hmarked := (f.endState_retires context).1
  rw [Bool.eq_iff_iff, hmarked.used i b hb, CheckResult.isUsed, List.any_eq_true]
  constructor
  · rintro ⟨m, hm, htarget, huse⟩
    have hoccurrence : s.occurrence? m = some ⟨m.span, s.binderSymbol b, m.isDefinition⟩ := by
      rw [occurrence?, htarget, targetSymbol?, hb]
      rfl
    refine ⟨_, List.mem_filterMap.mpr ⟨m, List.mem_reverse.mpr hm, hoccurrence⟩, ?_⟩
    simp [huse, binderSymbol_span, hspan]
  · rintro ⟨o, ho, huse⟩
    obtain ⟨hdefinition, hsymbol⟩ := Bool.and_eq_true_iff.mp huse
    obtain ⟨m, hm, hoccurrence⟩ := List.mem_filterMap.mp ho
    obtain ⟨symbol, htarget, rfl⟩ := Option.map_eq_some_iff.mp hoccurrence
    have hsymbol : symbol.span = some n.span := eq_of_beq hsymbol
    refine ⟨m, List.mem_reverse.mp hm, ?_, by simpa using hdefinition⟩
    cases hm' : m.target with
    | binder j =>
      rw [hm'] at htarget
      obtain ⟨b', hb', rfl⟩ := Option.map_eq_some_iff.mp htarget
      rw [binderSymbol_span] at hsymbol
      rw [index_at hnodup hlocated hb hb' ((Option.some.inj hsymbol).trans hspan.symm)]
    | fixed symbol' =>
      rw [hm'] at htarget
      obtain rfl := Option.some.inj htarget
      rcases (f.endState_traced context).fixed m (List.mem_reverse.mp hm) _ hm' _ hsymbol with hK | ⟨hM, -⟩
      · obtain ⟨symbol', hdeclared⟩ := hK
        cases target_at_binder hnodup hlocated hb (hspan ▸ hdeclared)
      · exact absurd hM ((locals_nodup path text kind defines).2 n hn)

/-- The warnings about names that are not used are those that the checker found. -/
theorem unused_diagnostics (f : SyntaxFile) (context : Context) {options : WarningOptions}
    (hsought : options.unused = true) (hkept : "W1182" ∉ options.suppressed) :
    (((f.check context options).diagnostics.filter (·.code == "W1182")).map (·.span)).Perm
      (((f.endState context).records.errors.filter TypeError.isUnused).map (·.span)) := by
  have hreported (e : TypeError) (he : e.isUnused = true) :
      options.seeks e.cause = true ∧ options.suppresses e.cause = false := by
    have hcode : e.cause.code = "W1182" := eq_of_beq he
    refine ⟨?_, by simp [WarningOptions.suppresses, hcode, hkept]⟩
    cases hcause : e.cause <;> simp_all [WarningOptions.seeks, TypeError.Cause.code]
  rw [check_diagnostics, WarningOptions.diagnostics]
  refine (((List.mergeSort_perm _ _).filter _).map _).trans ?_
  rw [List.filter_map, List.map_map, List.filter_filter, List.filter_filter]
  refine List.Perm.trans (.of_eq ?_) ((List.reverse_perm _).filter _ |>.map _)
  refine congrArg (List.map TypeError.span) (List.filter_congr fun e _ => ?_)
  cases hunused : e.isUnused with
  | true =>
    obtain ⟨hseeks, hsuppresses⟩ := hreported e hunused
    have hcode : (e.cause.code == "W1182") = true := hunused
    simp [Diagnostic.located, hcode, hseeks, hsuppresses]
  | false =>
    have hcode : (e.cause.code == "W1182") = false := hunused
    simp [Diagnostic.located, hcode]

end SyntaxFile

/-- The warnings about names that are not used stand, each once, at those names that a `let` in an expression
binds, that start with no underscore, and that no name in the file means. -/
theorem checkText_unused (path : Path) (text : Text) (project : ProjectOptions)
    (options : Option WarningOptions) (hsought : (options.getD
      (Context.resolve path text project).warningOptions).unused = true)
    (hkept : "W1182" ∉ (options.getD (Context.resolve path text project).warningOptions).suppressed) :
    let r := checkText path text project options
    let unused := r.file.locals.filter fun n => !isUnderscored n.text && !r.isUsed n
    ((r.diagnostics.filter (·.code == "W1182")).map (·.span)).Perm (unused.map (·.span)) ∧
      (unused.map (·.span)).Nodup := by
  intro r unused
  let context := Context.resolve path text project
  let f := SyntaxFile.parse path text context.kind context.defines
  let s := f.endState context
  obtain ⟨hnodup, -⟩ := SyntaxFile.locals_nodup path text context.kind context.defines
  refine ⟨(f.unused_diagnostics context hsought hkept).trans ?_, hnodup.sublist (List.filter_sublist.map _)⟩
  obtain ⟨is, hholds, -, hwarned⟩ := (f.endState_retires context).2.warns rfl
  have hnone : (CheckerState.initial context.libraryNames).records.errors = [] := rfl
  rw [hnone, List.filter_nil, List.append_nil] at hwarned
  refine (hwarned.map _).trans (.of_eq (hholds.warnings_span fun n hn i b hb hspan => ?_))
  have hr : r = { s.result f context (options.getD context.warningOptions) with diagnostics := r.diagnostics } :=
    checkText_eq path text project options
  rw [SyntaxFile.isUsed_local path text context.kind context.defines context hn
    (options.getD context.warningOptions) hb hspan, hr]
  rfl

/-- A recursive function that only it calls, a pair of which one name is shadowed, and a name that is used. -/
theorem shadowed_unused :
    let text := "let f x =\n  let rec g y = g y\n  let (a, _b) = (x, g x)\n  let a = 1\n  a".toList
    let r := checkText ⟨"a.gl"⟩ text {} none
    (Context.resolve ⟨"a.gl"⟩ text {}).warningOptions.unused = true ∧
      "W1182" ∉ (Context.resolve ⟨"a.gl"⟩ text {}).warningOptions.suppressed ∧
      ((r.diagnostics.filter (·.code == "W1182")).map (·.span)).Perm [⟨37, 38⟩] := by
  intro text r
  have hkept : "W1182" ∉ (Context.resolve ⟨"a.gl"⟩ text {}).warningOptions.suppressed := by decide +kernel
  obtain ⟨hperm, -⟩ := checkText_unused ⟨"a.gl"⟩ text {} none rfl hkept
  have hunused : (r.file.locals.filter fun n => !isUnderscored n.text && !r.isUsed n).map (·.span) = [⟨37, 38⟩] := by
    decide +kernel
  exact ⟨rfl, hkept, hunused ▸ hperm⟩

end ScriptAnalyzer

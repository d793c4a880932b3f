import ScriptAnalyzer.Proofs.Syntax.ErrorNodes
import ScriptAnalyzer.Proofs.Typing.Declarations
import ScriptAnalyzer.Proofs.Typing.Warnings

/-!
What the result of a file says about its types, if the tree has no error nodes and no error was
reported.
-/

namespace ScriptAnalyzer

open CheckerState

/-- No type in the result is in error. -/
structure CheckResult.ErrorFree (r : CheckResult) : Prop where
  symbols : ∀ d ∈ r.symbols, d.2.ErrorFree
  occurrences : ∀ o ∈ r.occurrences, o.symbol.ErrorFree
  bindings : ∀ b ∈ r.bindings, b.type.hasError = false ∧ b.symbol.ErrorFree
  members : ∀ m ∈ r.members, ∀ t, m.receiver = .value t → t.hasError = false
  entities : ∀ e ∈ r.entities.all, ∀ m ∈ e.members, m.kind.ErrorFree

/-- No variable. -/
abbrev NoVar (_ : Nat) : Prop := False

/-- The state in front of a file that refers to the libraries `names`. -/
def CheckerState.initial (names : List String) : CheckerState :=
  { entities := { libraries := Catalog.entitiesOf names } }

theorem CheckerState.sane_initial (F : Nat → Prop) (hF : ∀ v, ¬F v) (names : List String) :
    (initial names).Sane F ∧ (initial names).Lucid F := by
  refine ⟨⟨fun v hv => absurd hv (hF v), ?_, nofun, nofun, fun e he => ?_⟩, nofun, fun e he => ?_⟩
  · exact ⟨⟨fun _ => 0, fun v t hv => by simp [TypeStore.binding?, initial] at hv⟩,
      fun v t hv => by simp [TypeStore.binding?, initial] at hv⟩
  · exact (Catalog.live_of_entitiesOf he).constructors
  · exact (Catalog.live_of_entitiesOf he).members

namespace CheckerState

variable {s : CheckerState}

theorem binderSymbol_span (b : Binder) : (s.binderSymbol b).span = some b.span := by
  unfold binderSymbol
  dsimp only
  split <;> rfl

end CheckerState

/-! Reported errors -/

/-- An error of the checker: not a warning, even if warnings are treated as errors. -/
def Diagnostic.isTypeError (d : Diagnostic) : Bool := d.isError && d.code.toList.head? == some 'E'

theorem TypeError.Cause.code_of_error {cause : Cause} (h : cause.isWarning = false) :
    cause.code.toList.head? = some 'E' := by
  cases cause <;> simp_all [isWarning, code]

theorem WarningOptions.reported (o : WarningOptions) (text : Text) {errors : List TypeError}
    (h : 0 < errors.countP (!·.cause.isWarning)) :
    ∃ d ∈ o.diagnostics text errors, d.isTypeError = true := by
  obtain ⟨e, he, hcause⟩ := List.countP_pos_iff.mp h
  have hwarning : e.cause.isWarning = false := by simpa using hcause
  have hreports : (!o.suppresses e.cause) = true := by simp [suppresses, hwarning]
  refine ⟨_, List.mem_mergeSort.mpr (List.mem_map.mpr ⟨e, List.mem_filter.mpr ⟨he, hreports⟩, rfl⟩), ?_⟩
  simp [Diagnostic.isTypeError, Diagnostic.located, Diagnostic.isError, severity, hwarning,
    TypeError.Cause.code_of_error]

namespace SyntaxFile

/-- The state behind the last declaration, which the result is made of. -/
def endState (f : SyntaxFile) (context : Context) : CheckerState :=
  ((Checker.file f context).run (initial context.libraryNames)).2

variable (f : SyntaxFile) (context : Context) (options : WarningOptions)

/-- The result is made of the state that looking for all warnings leads to, but for the diagnostics. -/
theorem check_eq : f.check context options =
    { (f.endState context).result f context options with
      diagnostics := (f.check context options).diagnostics } := by
  rw [f.check_eq_of_default context options]
  rfl

theorem check_diagnostics : (f.check context options).diagnostics =
    options.diagnostics f.text
      ((f.endState context).records.errors.reverse.filter fun e => options.seeks e.cause) := by
  rw [f.check_eq_of_default context options]
  rfl

theorem alarms_endState
    (hquiet : ∀ d ∈ (f.check context options).diagnostics, d.isTypeError = false) :
    (f.endState context).alarms = 0 := by
  by_contra hne
  have hsought : ((f.endState context).records.errors.reverse.filter fun e => options.seeks e.cause).countP
      (!·.cause.isWarning) = (f.endState context).alarms := by
    rw [List.countP_filter, List.countP_reverse, alarms]
    refine List.countP_congr fun e _ => ?_
    cases hcause : e.cause <;> simp [TypeError.Cause.isWarning, WarningOptions.seeks]
  obtain ⟨d, hd, herror⟩ := options.reported f.text (hsought ▸ Nat.pos_of_ne_zero hne)
  rw [hquiet d (f.check_diagnostics context options ▸ hd)] at herror
  cases herror

end SyntaxFile

/-- Whatever the options are, the result of a text is made of the end state, but for the diagnostics. -/
theorem checkText_eq (path : Path) (text : Text) (project : ProjectOptions) (options : Option WarningOptions) :
    let r := checkText path text project options
    r = { (r.file.endState r.context).result r.file r.context (options.getD r.context.warningOptions) with
      diagnostics := r.diagnostics } :=
  SyntaxFile.check_eq _ _ _

end ScriptAnalyzer

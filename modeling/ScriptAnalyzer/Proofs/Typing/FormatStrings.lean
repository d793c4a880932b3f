import ScriptAnalyzer.Proofs.Typing.ExpressionVisits
import ScriptAnalyzer.Proofs.Syntax.Literals
import ScriptAnalyzer.Proofs.Typing.Generalization

/-!
Format strings: what an application of a format function to a string literal is checked as, where a bad
placeholder is reported, and which applications have the type that the literal says.

Main statements: the report of a bad placeholder stands at its percent sign and between characters if no escape
stands in front of it in the literal, and the character behind it takes one byte. Unless the name means a member of
an entity that the file declares, the literal gives the type of an application if and only if the name means the
function of the core library. A member of a file's entity does not hide the function: its application is checked as
if it were the function's.
-/

namespace ScriptAnalyzer
namespace Format

variable {offset : Nat} {opener? : Option Nat} {cs : Text} {bad : BadPlaceholder}

theorem conversions_error (h : conversions offset opener? cs = .error bad) : opener? = some bad.offset ∨
    ∃ front behind, cs = front ++ '%' :: behind ∧ bad.offset = offset + Text.byteSize front := by
  fun_induction conversions offset opener? cs with
  | case1 => cases h
  | case2 offset start =>
    obtain rfl := Except.error.inj h
    exact .inl rfl
  | case3 offset c cs ih =>
    rcases ih h with hopener | ⟨front, behind, rfl, hoffset⟩
    · split at hopener
      case isTrue hc => exact .inr ⟨[], cs, by rw [hc]; rfl, (Option.some.inj hopener).symm⟩
      case isFalse => cases hopener
    · exact .inr ⟨c :: front, behind, rfl, by rw [hoffset, Text.byteSize, Nat.add_assoc]⟩
  | case4 offset start c cs hflag ih =>
    rcases ih h with hopener | ⟨front, behind, rfl, hoffset⟩
    · exact .inl hopener
    · exact .inr ⟨c :: front, behind, rfl, by rw [hoffset, Text.byteSize, Nat.add_assoc]⟩
  | case5 offset start c cs hflag hunknown =>
    obtain rfl := Except.error.inj h
    exact .inl rfl
  | case6 offset start c cs hflag conversion hknown ih =>
    cases hrest : conversions (offset + c.utf8Size) none cs with
    | ok placeholders =>
      rw [hrest] at h
      cases h
    | error bad' =>
      rw [hrest] at h
      obtain rfl := Except.error.inj h
      obtain ⟨front, behind, rfl, hoffset⟩ := (ih hrest).resolve_left (by simp)
      exact .inr ⟨c :: front, behind, rfl, by rw [hoffset, Text.byteSize, Nat.add_assoc]⟩

/-- A bad placeholder starts with a percent sign. -/
theorem arguments_error (h : arguments cs = .error bad) :
    ∃ i, cs[i]? = some '%' ∧ Text.byteSize (cs.take i) = bad.offset := by
  have hconversions : conversions 0 none cs = .error bad := by
    unfold arguments at h
    cases hall : conversions 0 none cs with
    | ok placeholders =>
      rw [hall] at h
      cases h
    | error bad' =>
      rw [hall] at h
      rw [Except.error.inj h]
  obtain ⟨front, behind, rfl, hoffset⟩ := (conversions_error hconversions).resolve_left nofun
  refine ⟨front.length, ?_, ?_⟩
  · rw [List.getElem?_append_right (Nat.le_refl _), Nat.sub_self]
    rfl
  · rw [List.take_left, hoffset, Nat.zero_add]

def BadPlaceholder.cause (bad : BadPlaceholder) : TypeError.Cause :=
  match bad.conversion with
  | none => .incompletePlaceholder
  | some c => .unknownPlaceholder c

theorem BadPlaceholder.cause_code (bad : BadPlaceholder) : bad.cause.code = "E0001" := by
  unfold cause
  cases bad.conversion <;> rfl

end Format

theorem TypeStore.unify_error (s : TypeStore) (t : Ty) : s.unify t .error = (true, s) := by
  have hshallow : s.shallow .error = .error := by
    unfold shallow
    cases s.size <;> rfl
  rw [unify, unifyWith, hshallow]
  cases s.shallow t <;> rfl

namespace Checker

/-- The type of a format function behind its format string. A bad placeholder is reported. -/
def formatted (function : String) (literal : Span) (format : String) : Checker Ty :=
  match Format.arguments format.toList with
  | .ok placeholders => formatType function placeholders
  | .error bad => do
    report bad.cause (placeholderSpan literal bad.offset)
    return .error

section

variable {s t : CheckerState} {p q : Checker Callee}

theorem settle_run (h : p.run s = q.run t) (span : Span) (expected : Option Ty) :
    (settle span expected p).run s = (settle span expected q).run t := by
  cases expected with
  | none => exact h
  | some t => rw [settle, settle, StateT.run_bind, StateT.run_bind, h]

/-- What is in error already agrees with every expected type. -/
theorem settle_error (h : p.run s = (.value .error, t)) (span : Span) (expected : Option Ty) :
    ((settle span expected p).run s).2.records = t.records := by
  cases expected with
  | none => rw [settle, h]
  | some expected =>
    suffices hsettle : (settle span (some expected) p).Yields s fun _ s' => s'.records = t.records from hsettle
    have hp : p.Yields s fun callee s' => callee = .value .error ∧ s' = t :=
      ⟨congrArg Prod.fst h, congrArg Prod.snd h⟩
    refine hp.bind fun callee s' ⟨hcallee, hs'⟩ => ?_
    rw [hcallee, hs', calleeType, yields_bind, yields_pure, yields_bind, expect, yields_bind, yields_unify,
      TypeStore.unify_error]
    rfl

end

section

variable {s : CheckerState} {name : Ident} {owner : String} {m : Member}

theorem formatApplication?_run (hname : name.text ∈ Format.functions) (s : CheckerState) (literal : Span)
    (format : String) :
    (formatApplication? (.ident name) (.literal literal (.string format))).run s =
      match s.meaning? name.text with
      | some (.member owner m) =>
        (do
          mention name.span (.fixed (m.symbol owner))
          some <$> formatted name.text literal format : Checker (Option Ty)).run s.readScope
      | _ => (none, s.readScope) := by
  suffices h : (formatApplication? (.ident name) (.literal literal (.string format))).Yields s fun t? s' =>
      (t?, s') = match s.meaning? name.text with
        | some (.member owner m) =>
          (do
            mention name.span (.fixed (m.symbol owner))
            some <$> formatted name.text literal format : Checker (Option Ty)).run s.readScope
        | _ => (none, s.readScope) from h
  have hcontains : (!Format.functions.contains name.text) = false := by simpa using hname
  have hread : s.readScope.meaning? name.text = s.meaning? name.text := rfl
  rw [formatApplication?, hcontains, if_neg Bool.false_ne_true, yields_bind, yields_readScope, yields_bind, yields_get,
    hread, formatted]
  cases s.meaning? name.text with
  | none => rfl
  | some meaning =>
    cases meaning with
    | member owner m => cases Format.arguments format.toList <;> rfl
    | binder index => rfl
    | entity path => rfl

/-- The application of a format function to a string literal has the type that the literal says. -/
theorem expr_formatted (hname : name.text ∈ Format.functions)
    (hmeaning : s.meaning? name.text = some (.member owner m)) (span literal : Span) (format : String)
    (expected : Option Ty) :
    (expr (.app span (.ident name) (.literal literal (.string format))) expected).run s =
      (settle span expected do
        mention name.span (.fixed (m.symbol owner))
        return .value (← formatted name.text literal format)).run s.readScope := by
  rw [expr]
  refine settle_run ?_ span expected
  rw [StateT.run_bind, formatApplication?_run hname, hmeaning]
  rfl

/-- A bad placeholder is reported, and nothing else. -/
theorem expr_badPlaceholder {bad : Format.BadPlaceholder} {format : String} (hname : name.text ∈ Format.functions)
    (hmeaning : s.meaning? name.text = some (.member owner m)) (hbad : Format.arguments format.toList = .error bad)
    (span literal : Span) (expected : Option Ty) :
    ((expr (.app span (.ident name) (.literal literal (.string format))) expected).run s).2.records.errors =
      ⟨bad.cause, placeholderSpan literal bad.offset⟩ :: s.records.errors := by
  have hformatted : (do
      mention name.span (.fixed (m.symbol owner))
      return .value (← formatted name.text literal format) : Checker Callee).run s.readScope =
        (.value .error, { s.readScope with records :=
          { s.records with
            mentions := ⟨name.span, .fixed (m.symbol owner), false⟩ :: s.records.mentions
            errors := ⟨bad.cause, placeholderSpan literal bad.offset⟩ :: s.records.errors } }) := by
    rw [formatted, hbad]
    rfl
  rw [expr_formatted hname hmeaning, settle_error hformatted]

end

end Checker

namespace PercentSign

open Checker (placeholderSpan)

variable {text value before front behind : Text} {span : Span} {offset : Nat}

/-- Two bytes from a percent sign on, or one at the end of the literal, are cut out between characters if the
character behind the percent sign takes one byte. -/
theorem validIn_iff (lead inside rest : Text) :
    Span.ValidIn ⟨Text.byteSize lead, min (Text.byteSize lead + 2) (Text.byteSize (lead ++ '%' :: inside))⟩
      (lead ++ ('%' :: inside ++ rest)) ↔ ∀ c ∈ inside.head?, c.utf8Size = 1 := by
  have hpercent : Text.byteSize (lead ++ ['%']) = Text.byteSize lead + 1 := Text.byteSize_append lead ['%']
  have hsize : Text.byteSize (lead ++ '%' :: inside) = Text.byteSize lead + 1 + Text.byteSize inside := by
    rw [← hpercent, ← Text.byteSize_append, List.append_assoc, List.singleton_append]
  rw [hsize]
  cases inside with
  | nil =>
    have hvalid := Span.validIn_of_append lead ['%'] rest
    rw [hpercent] at hvalid
    rw [Text.byteSize, Nat.min_eq_right (Nat.le_succ _)]
    exact iff_of_true hvalid (by simp)
  | cons c cs =>
    have hpos := c.utf8Size_pos
    rw [List.head?_cons, Text.byteSize, Nat.min_eq_left (by omega)]
    have htext : lead ++ ('%' :: c :: cs ++ rest) = (lead ++ ['%']) ++ (c :: (cs ++ rest)) := by simp
    have hboundary : Text.isBoundary (lead ++ ('%' :: c :: cs ++ rest)) (Text.byteSize lead + 2) = true ↔
        c.utf8Size = 1 := by
      rw [htext, ← Nat.add_assoc _ 1 1, ← hpercent, Text.isBoundary_append, Text.isBoundary_one]
    refine ⟨fun h d hd => Option.mem_some.mp hd ▸ hboundary.mp h.stop, fun h => ?_⟩
    have hstop := hboundary.mpr (h c rfl)
    exact ⟨Nat.le_add_right _ _, Text.le_byteSize_of_isBoundary hstop, Text.isBoundary_byteSize _ _, hstop⟩

theorem head?_closing {closing : Text} (hclosing : closing = [] ∨ closing = ['"']) :
    (∀ c ∈ (behind ++ closing).head?, c.utf8Size = 1) ↔ ∀ c ∈ behind.head?, c.utf8Size = 1 := by
  cases behind with
  | cons c cs => rfl
  | nil =>
    refine iff_of_true (fun c hc => ?_) nofun
    rcases hclosing with rfl | rfl
    · cases hc
    · cases hc
      rfl

/-- The place of the report, where the offset is that of the percent sign in the value. -/
theorem span_iff (h : PercentSign text span value offset before front behind) (hle : offset ≤ Text.byteSize front)
    (hiff : offset = Text.byteSize front ↔ '\\' ∉ front) :
    let reported := placeholderSpan span offset
    reported.start = Text.byteSize (before ++ '"' :: front) ∧ reported.ValidIn text ↔
      '\\' ∉ front ∧ ∀ c ∈ behind.head?, c.utf8Size = 1 := by
  obtain ⟨closing, rest, hclosing, rfl, rfl⟩ := h.literal
  let lead := before ++ '"' :: front
  have hlead : Text.byteSize lead = Text.byteSize before + 1 + Text.byteSize front := by
    rw [Text.byteSize_append, Text.byteSize, ← Nat.add_assoc]
    rfl
  have hliteral : before ++ '"' :: (front ++ '%' :: behind ++ closing) = lead ++ '%' :: (behind ++ closing) := by
    simp [lead]
  have htext : before ++ ('"' :: (front ++ '%' :: behind ++ closing) ++ rest) =
      lead ++ ('%' :: (behind ++ closing) ++ rest) := by simp [lead]
  have hinside : Text.byteSize before + 1 + offset ≤ Text.byteSize (lead ++ '%' :: (behind ++ closing)) := by
    rw [Text.byteSize_append]
    omega
  have hstart : Text.byteSize before + 1 + offset = Text.byteSize lead ↔ offset = Text.byteSize front := by omega
  rw [htext, hliteral, placeholderSpan, Nat.min_eq_left hinside, ← hiff, ← head?_closing hclosing,
    ← validIn_iff lead _ rest, ← hstart]
  exact and_congr_right fun hplace => hplace ▸ Iff.rfl

end PercentSign

/-- The report of a bad placeholder starts at its percent sign and ends between characters if and only if no escape
stands in front of the percent sign and the character behind it takes one byte. -/
theorem Checker.badPlaceholder_reported {path : Path} {text : Text} {kind : SourceKind} {defines : List String}
    {span literal : Span} {name : Ident} {format : String} {bad : Format.BadPlaceholder}
    {s : CheckerState} {owner : String} {m : Member}
    (happ : .app span (.ident name) (.literal literal (.string format)) ∈
      Decl.exprsOfAll (SyntaxFile.parse path text kind defines).decls)
    (hname : name.text ∈ Format.functions) (hmeaning : s.meaning? name.text = some (.member owner m))
    (hbad : Format.arguments format.toList = .error bad) (expected : Option Ty) :
    ∃ before front behind, PercentSign text literal format.toList bad.offset before front behind ∧
      ∃ e : TypeError,
        ((expr (.app span (.ident name) (.literal literal (.string format))) expected).run s).2.records.errors =
          e :: s.records.errors ∧ e.cause.code = "E0001" ∧
        (e.span.start = Text.byteSize (before ++ '"' :: front) ∧ e.span.ValidIn text ↔
          '\\' ∉ front ∧ ∀ c ∈ behind.head?, c.utf8Size = 1) := by
  have hliteral := Decl.preorder_of_mem_exprsOfAll _ happ (Expr.preorder_of_child (by simp [Expr.children])
    (Expr.self_mem_preorder (.literal literal (.string format))))
  obtain ⟨t, ht, hwrites⟩ := SyntaxFile.string_writes hliteral
  obtain ⟨i, hi, hoffset⟩ := Format.arguments_error hbad
  obtain ⟨before, front, behind, hsign, hle, hiff⟩ := exists_percentSign hwrites ht hi
  rw [hoffset] at hsign hle hiff
  exact ⟨before, front, behind, hsign, _, expr_badPlaceholder hname hmeaning hbad span literal expected,
    bad.cause_code, hsign.span_iff hle hiff⟩

/-- The application of a name to a string literal, in parts. -/
def Expr.formatParts? : Expr → Option (Span × Ident × Span × String)
  | .app span (.ident name) (.literal place (.string format)) => some (span, name, place, format)
  | _ => none

theorem Expr.eq_of_formatParts {e : Expr} {parts : Span × Ident × Span × String} (h : e.formatParts? = some parts) :
    e = .app parts.1 (.ident parts.2.1) (.literal parts.2.2.1 (.string parts.2.2.2)) := by
  unfold formatParts? at h
  split at h
  case h_1 =>
    cases h
    rfl
  case h_2 => cases h

/-- A placeholder with nothing in front of it. -/
theorem plainPlaceholder_reported :
    let text := "let a = printfn \"%q\"".toList
    let r := checkText ⟨"a.gl"⟩ text {} none
    let app : Expr := .app ⟨8, 20⟩ (.ident ⟨"printfn", ⟨8, 15⟩⟩) (.literal ⟨16, 20⟩ (.string "%q"))
    app ∈ Decl.exprsOfAll r.file.decls ∧
      ∃ before front behind, PercentSign text ⟨16, 20⟩ ['%', 'q'] 0 before front behind ∧
        ∃ e : TypeError, ((Checker.expr app none).run (r.file.startState r.context)).2.records.errors = [e] ∧
          e.cause.code = "E0001" ∧ e.span.start = Text.byteSize (before ++ '"' :: front) ∧ e.span.ValidIn text := by
  intro text r app
  let s := r.file.startState r.context
  have hparts : (Decl.exprsOfAll r.file.decls).filterMap Expr.formatParts? =
      [(⟨8, 20⟩, ⟨"printfn", ⟨8, 15⟩⟩, ⟨16, 20⟩, "%q")] := by decide +kernel
  obtain ⟨e, he, hshown⟩ := List.mem_filterMap.mp (hparts ▸ List.mem_singleton_self _)
  have heq : e = app := Expr.eq_of_formatParts hshown
  have happ : app ∈ Decl.exprsOfAll r.file.decls := heq ▸ he
  have hbinder : s.binder? "printfn" = none := by decide +kernel
  have hmember : (s.memberOf? "printfn" s.containers).isSome = true := by decide +kernel
  obtain ⟨⟨owner, m⟩, hmember⟩ := Option.isSome_iff_exists.mp hmember
  have hmeaning : s.meaning? "printfn" = some (.member owner m) := by
    rw [CheckerState.meaning?, hbinder, hmember]
  have hbad : Format.arguments "%q".toList = .error ⟨0, some 'q'⟩ := by decide +kernel
  obtain ⟨before, front, behind, hsign, e, herrors, hcode, hexact⟩ :=
    Checker.badPlaceholder_reported happ (by decide) hmeaning hbad none
  have hnone : s.records.errors = [] := by decide +kernel
  rw [hnone] at herrors
  have hsigns : ∀ c ∈ front ++ '%' :: behind, c ∈ text := fun c hc => by
    obtain ⟨closing, rest, -, htext, -⟩ := hsign.literal
    rw [htext]
    exact List.mem_append_right _ (List.mem_append_left _ (List.mem_cons_of_mem _ (List.mem_append_left _ hc)))
  have hplain (c : Char) (hc : c ∈ text) : c ≠ '\\' ∧ c.utf8Size = 1 := by
    have hall : text.all (fun c => decide (c ≠ '\\' ∧ c.utf8Size = 1)) = true := by decide
    exact of_decide_eq_true (List.all_eq_true.mp hall c hc)
  have hfront : '\\' ∉ front := fun h => (hplain _ (hsigns _ (List.mem_append_left _ h))).1 rfl
  have hbehind : ∀ c ∈ behind.head?, c.utf8Size = 1 := fun c hc =>
    (hplain c (hsigns c (List.mem_append_right _ (List.mem_cons_of_mem _ (List.mem_of_head? hc))))).2
  obtain ⟨hstart, hvalid⟩ := hexact.mpr ⟨hfront, hbehind⟩
  dsimp only [s] at herrors
  dsimp only [app]
  exact ⟨happ, before, front, behind, hsign, e, herrors, hcode, hstart, hvalid⟩

/-- An escape in front of a bad placeholder moves the report to the left of the percent sign. -/
theorem escape_moves_report :
    let text := "let a = printfn \"\\n%q\"".toList
    let r := checkText ⟨"a.gl"⟩ text {} none
    (Decl.exprsOfAll r.file.decls).filterMap Expr.formatParts? =
        [(⟨8, 22⟩, ⟨"printfn", ⟨8, 15⟩⟩, ⟨16, 22⟩, "\n%q")] ∧
      Format.arguments "\n%q".toList = .error ⟨1, some 'q'⟩ ∧
      r.diagnostics.map (fun d => (d.code, d.span)) = [("E0001", ⟨18, 20⟩)] ∧ text[18]? = some 'n' ∧
      text[19]? = some '%' := by
  decide +kernel

/-! Functions that are hidden -/

namespace Catalog

theorem entities_eq : libraries.flatMap (·.2) = core :: (libraries.flatMap (·.2)).tail := rfl

theorem others_formatless : (libraries.flatMap (·.2)).tail.all (fun e => Format.functions.all fun name =>
    (e.staticMember? name).isNone) = true := by
  decide

/-- The format functions are those of the core library. -/
theorem eq_core_of_formatFunction {names : List String} {e : Entity} {name : String} {m : Member}
    (he : e ∈ entitiesOf names) (hname : name ∈ Format.functions) (hm : e.staticMember? name = some m) :
    e = core := by
  obtain ⟨l, hl, he⟩ := List.mem_flatMap.mp he
  have hall : e ∈ libraries.flatMap (·.2) := List.mem_flatMap.mpr ⟨l, List.mem_of_mem_filter hl, he⟩
  rw [entities_eq] at hall
  refine (List.mem_cons.mp hall).resolve_right fun hother => ?_
  have hnone := List.all_eq_true.mp (List.all_eq_true.mp others_formatless e hother) name hname
  rw [hm] at hnone
  cases hnone

end Catalog

namespace CheckerState

variable {s : CheckerState} {name owner : String} {m : Member} {names : List String}

/-- The name means a member of an entity that the file declares. -/
def MeansDeclared (s : CheckerState) (name : String) : Prop :=
  ∃ owner m, s.meaning? name = some (.member owner m) ∧ ∃ e ∈ s.entities.declared, e.path = owner

/-- The name means a function of the core library. -/
def MeansCore (s : CheckerState) (name : String) : Prop :=
  ∃ m, s.meaning? name = some (.member Catalog.core.path m) ∧ Catalog.core.staticMember? name = some m ∧
    ∀ e ∈ s.entities.declared, e.path ≠ Catalog.core.path

theorem exists_owner (h : s.meaning? name = some (.member owner m)) :
    ∃ e ∈ s.entities.all, e.path = owner ∧ e.staticMember? name = some m := by
  obtain ⟨_, heq, -⟩ | ⟨owner', m', heq, -, hfound⟩ | ⟨_, heq, -⟩ := Checker.meaning_cases h
  · cases heq
  · obtain ⟨rfl, rfl⟩ := Meaning.member.inj heq
    obtain ⟨path, -, hpath⟩ := List.exists_of_findSome?_eq_some hfound
    obtain ⟨m', hm', heq⟩ := Option.map_eq_some_iff.mp hpath
    obtain ⟨e, he, hmember⟩ := Option.bind_eq_some_iff.mp hm'
    obtain ⟨rfl, rfl⟩ := Prod.mk.inj heq
    have hpath := List.find?_some he
    exact ⟨e, List.mem_of_find?_eq_some he, eq_of_beq hpath, hmember⟩
  · cases heq

/-- A format function that is found as a member is the one of the core library, or one of the file. -/
theorem meansCore_of_member (hlibraries : s.entities.libraries = Catalog.entitiesOf names)
    (hname : name ∈ Format.functions) (hdeclared : ¬s.MeansDeclared name)
    (h : s.meaning? name = some (.member owner m)) : s.MeansCore name := by
  obtain ⟨e, he, rfl, hm⟩ := exists_owner h
  have hforeign : ∀ e' ∈ s.entities.declared, e'.path ≠ e.path := fun e' he' heq =>
    hdeclared ⟨e.path, m, h, e', he', heq⟩
  rcases List.mem_append.mp he with he | he
  · exact absurd rfl (hforeign e he)
  · obtain rfl := Catalog.eq_core_of_formatFunction (hlibraries ▸ he) hname hm
    exact ⟨m, h, hm, hforeign⟩

end CheckerState

namespace Checker

open CheckerState

variable {s t : CheckerState} {name : Ident} {names : List String}

/-- The application of a value or a method, whatever its name is. -/
def applied (function arg : Expr) (expected : Option Ty) : Checker Callee := do
  match ← expr function none with
  | .method name overloads =>
    let ts ← methodArgs arg (valueOf arg (expr arg none))
    return .value (← callMethod name overloads ts arg.span)
  | .value t _ =>
    return .value (← apply t function.span (fun e => valueOf arg (expr arg e)) arg.span expected)

theorem expr_applied {function arg : Expr} (h : (formatApplication? function arg).run s = (none, t)) (span : Span)
    (expected : Option Ty) :
    (expr (.app span function arg) expected).run s = (settle span expected (applied function arg expected)).run t := by
  rw [expr]
  refine settle_run ?_ span expected
  rw [StateT.run_bind, h]
  rfl

/-- What is no name is applied. -/
theorem expr_app_of_nameless {function : Expr} (hfunction : ∀ name, function ≠ .ident name) (arg : Expr)
    (span : Span) (expected : Option Ty) (s : CheckerState) :
    (expr (.app span function arg) expected).run s = (settle span expected (applied function arg expected)).run s := by
  refine expr_applied ?_ span expected
  unfold formatApplication?
  split
  case h_1 name _ _ => exact absurd rfl (hfunction name)
  case h_2 => rfl

/-- A name that means no member is applied. -/
theorem expr_app_of_memberless (hmeaning : ∀ owner m, s.meaning? name.text ≠ some (.member owner m))
    (hname : name.text ∈ Format.functions) (span literal : Span) (format : String) (expected : Option Ty) :
    (expr (.app span (.ident name) (.literal literal (.string format))) expected).run s =
      (settle span expected (applied (.ident name) (.literal literal (.string format)) expected)).run s.readScope := by
  refine expr_applied ?_ span expected
  rw [formatApplication?_run hname]
  split
  case h_1 owner m h => exact absurd h (hmeaning owner m)
  case h_2 => rfl

/-- Members that the file declares are taken for format functions, too. -/
theorem expr_formatted_of_declared (hname : name.text ∈ Format.functions) (h : s.MeansDeclared name.text)
    (span literal : Span) (format : String) (expected : Option Ty) : ∃ symbol,
    (expr (.app span (.ident name) (.literal literal (.string format))) expected).run s =
      (settle span expected do
        mention name.span (.fixed symbol)
        return .value (← formatted name.text literal format)).run s.readScope := by
  obtain ⟨owner, m, hmeaning, -⟩ := h
  exact ⟨m.symbol owner, expr_formatted hname hmeaning span literal format expected⟩

/-- Unless the name means a member of an entity that the file declares, the literal gives the type of the application
if the name means the function of the core library, and else the name is applied like any other value. -/
theorem formatApplication_typed (hlibraries : s.entities.libraries = Catalog.entitiesOf names)
    (hname : name.text ∈ Format.functions) (hdeclared : ¬s.MeansDeclared name.text) (span literal : Span)
    (format : String) (expected : Option Ty) :
    let app : Expr := .app span (.ident name) (.literal literal (.string format))
    (s.MeansCore name.text → ∃ m, Catalog.core.staticMember? name.text = some m ∧
      (expr app expected).run s =
        (settle span expected do
          mention name.span (.fixed (m.symbol Catalog.core.path))
          return .value (← formatted name.text literal format)).run s.readScope) ∧
    (¬s.MeansCore name.text → (expr app expected).run s =
      (settle span expected (applied (.ident name) (.literal literal (.string format)) expected)).run s.readScope) := by
  refine ⟨fun ⟨m, hmeaning, hm, _⟩ => ⟨m, hm, ?_⟩, fun hcore => ?_⟩
  · exact expr_formatted hname hmeaning span literal format expected
  · refine expr_app_of_memberless (fun owner m hmeaning => ?_) hname span literal format expected
    exact hcore (meansCore_of_member hlibraries hname hdeclared hmeaning)

/-- Without other declarations the name means the function of the core library, a parameter hides it. -/
theorem parameter_hides_printfn :
    let s := CheckerState.initial ["Core"]
    let inner : CheckerState := { s with
      binders := #[⟨"printfn", "printfn", .mono (.function .string .int), [], ⟨0, 0⟩, false⟩]
      scope := { s.scope with binders := [0] } }
    let arg : Expr := .literal ⟨8, 12⟩ (.string "%d")
    let app : Expr := .app ⟨0, 12⟩ (.ident ⟨"printfn", ⟨0, 7⟩⟩) arg
    (∃ m, Catalog.core.staticMember? "printfn" = some m ∧ (expr app none).run s =
      (settle ⟨0, 12⟩ none do
        mention ⟨0, 7⟩ (.fixed (m.symbol "Core"))
        return .value (← formatted "printfn" ⟨8, 12⟩ "%d")).run s.readScope) ∧
    (expr app none).run inner =
      (settle ⟨0, 12⟩ none (applied (.ident ⟨"printfn", ⟨0, 7⟩⟩) arg none)).run inner.readScope := by
  intro s inner arg app
  have hmember : (s.memberOf? "printfn" s.containers).isSome = true := by decide
  obtain ⟨⟨owner, m⟩, hmember⟩ := Option.isSome_iff_exists.mp hmember
  have hmeaning : s.meaning? "printfn" = some (.member owner m) := by
    rw [meaning?, hmember]
    rfl
  have hfile : ¬s.MeansDeclared "printfn" := fun ⟨_, _, _, _, he, _⟩ => nomatch he
  have hcore : s.MeansCore "printfn" := meansCore_of_member rfl (by decide) hfile hmeaning
  have hbinder : inner.meaning? "printfn" = some (.binder 0) := rfl
  have hname : (⟨"printfn", ⟨0, 7⟩⟩ : Ident).text ∈ Format.functions := by decide
  refine ⟨(formatApplication_typed (s := s) rfl hname hfile ⟨0, 12⟩ ⟨8, 12⟩ "%d" none).1 hcore, ?_⟩
  refine (formatApplication_typed (s := inner) rfl hname ?_ ⟨0, 12⟩ ⟨8, 12⟩ "%d" none).2 ?_
  · rintro ⟨_, _, h, -⟩
    rw [hbinder] at h
    cases h
  · rintro ⟨_, h, -⟩
    rw [hbinder] at h
    cases h

/-- A member of an opened module does not hide the function, unless its name is in parentheses. -/
theorem openedMember_taken_for_printfn :
    let signature (source : String) : Option String :=
      ((checkText ⟨"a.glx"⟩ source.toList {} none).declared? "a").map (·.signature)
    let r := checkText ⟨"a.glx"⟩
      "module M =\n    let printfn (s: string) = 1\nopen M\nlet a = printfn \"%d\"".toList {} none
    (r.occurrences.find? (·.span == ⟨58, 65⟩)).map (fun o => (o.symbol.name, o.symbol.signature)) =
        some ("M.printfn", "string -> int") ∧
      signature "module M =\n    let printfn (s: string) = 1\nopen M\nlet a = printfn \"%d\"" =
        some "int -> unit" ∧
      signature "module M =\n    let printfn (s: string) = 1\nopen M\nlet a = (printfn) \"%d\"" = some "int" := by
  decide +kernel

end Checker

end ScriptAnalyzer

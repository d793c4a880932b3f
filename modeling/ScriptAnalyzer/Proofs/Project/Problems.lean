import ScriptAnalyzer.Proofs.Project.Regions
import ScriptAnalyzer.Proofs.Token.Spelling

/-!
What is wrong with the directives of a text is reported at places of the text.
-/

namespace ScriptAnalyzer

namespace DirectiveLine

/-- The line and its arguments are parts of a text of this size. -/
structure Inside (size : Nat) (d : DirectiveLine) : Prop where
  span : d.span.Inside size
  args : ∀ arg ∈ d.args, arg.span.Inside size

variable {text : Text} {span : Span}

theorem argument_span (text : Text) (t : Token × Span) : (argument text t).span = t.2 := by
  unfold argument
  split <;> rfl

theorem arguments_inside {size : Nat} {args : List DirectiveArgument} (hspan : span.Inside size)
    (hargs : ∀ arg ∈ args, span.stop ≤ arg.span.start ∧ arg.span.Inside size) :
    Span.Inside size ⟨span.start, (args.getLast?.map (·.span.stop)).getD span.stop⟩ := by
  cases hlast : args.getLast? with
  | none => exact hspan
  | some arg =>
    obtain ⟨hbehind, harg⟩ := hargs arg (List.mem_of_getLast? hlast)
    exact ⟨hspan.ordered.trans (hbehind.trans harg.ordered), harg.inside⟩

theorem collect_inside (skipped : Nat) {toks : List (Token × Span)} (h : toks <:+ Token.tokens text) :
    ∀ d ∈ collect text skipped toks, d.Inside text.byteSize := by
  induction toks generalizing skipped with
  | nil => exact nofun
  | cons t rest ih =>
    obtain ⟨token, span⟩ := t
    have hrest : rest <:+ Token.tokens text := (List.suffix_cons _ rest).trans h
    have hinside {t : Token × Span} (ht : t ∈ (token, span) :: rest) : t.2.Inside text.byteSize :=
      (Token.validIn_of_mem (h.subset ht)).toInside
    unfold collect
    split
    · exact ih skipped hrest
    · split
      · split
        · have hargs {p q : Token × Span → Bool} : ∀ arg ∈ ((rest.takeWhile p).filter q).map (argument text),
              span.stop ≤ arg.span.start ∧ arg.span.Inside text.byteSize := by
            intro arg harg
            obtain ⟨t, ht, rfl⟩ := List.mem_map.mp harg
            have hmem : t ∈ rest := List.takeWhile_subset _ (List.mem_of_mem_filter ht)
            rw [argument_span]
            exact ⟨Token.stop_le_start h hmem, hinside (List.mem_cons_of_mem _ hmem)⟩
          refine List.forall_mem_cons.mpr ⟨⟨?_, fun arg harg => (hargs arg harg).2⟩, ih _ hrest⟩
          exact arguments_inside (hinside List.mem_cons_self) hargs
        · exact ih skipped hrest
      · exact ih skipped hrest

theorem all_inside (text : Text) : ∀ d ∈ all text, d.Inside text.byteSize :=
  collect_inside 0 (List.suffix_refl _)

end DirectiveLine

namespace Context

variable {size : Nat} {c : Context} {d : DirectiveLine}

/-- The problems are reported at places of a text of this size. -/
def ProblemsInside (size : Nat) (c : Context) : Prop := ∀ p ∈ c.problems, p.span.Inside size

theorem ProblemsInside.add {cause : DirectiveProblem.Cause} {span : Span} (h : c.ProblemsInside size)
    (hspan : span.Inside size) : (c.addProblem cause d span).ProblemsInside size :=
  List.forall_mem_append.mpr ⟨h, List.forall_mem_singleton.mpr hspan⟩

theorem ProblemsInside.nowarn (h : c.ProblemsInside size) (hd : d.Inside size) :
    (c.applyNowarn d).ProblemsInside size := by
  unfold applyNowarn
  split
  · exact h.add hd.span
  · have hargs := hd.args
    generalize d.args = args at hargs
    induction args generalizing c with
    | nil => exact h
    | cons arg args ih =>
      obtain ⟨harg, hargs⟩ := List.forall_mem_cons.mp hargs
      rw [List.foldl_cons]
      refine ih ?_ hargs
      split
      · exact h
      · exact h.add harg

theorem ProblemsInside.apply (base : Path) (h : c.ProblemsInside size) (hd : d.Inside size) :
    (c.apply base d).ProblemsInside size := by
  have hproblem (cause : DirectiveProblem.Cause) : (c.addProblem cause d d.span).ProblemsInside size :=
    h.add hd.span
  unfold Context.apply
  split
  · split
    · exact h
    · unfold applyReference
      split
      · split
        · exact h
        · exact hproblem _
      · exact hproblem _
  · split
    · exact h
    · unfold applyLoad
      split
      · exact hproblem _
      · exact h
  · exact h.nowarn hd
  · unfold applyDefine
    split
    · split
      · exact h
      · exact hproblem _
    · exact hproblem _
  · exact hproblem _

theorem ProblemsInside.step (base : Path) (regions : List Bool) (h : c.ProblemsInside size)
    (hd : d.Inside size) : (Context.step base (c, regions) d).1.ProblemsInside size := by
  unfold Context.step
  dsimp only
  split
  · exact h
  · exact h
  · exact h
  · split
    · exact h.apply base hd
    · exact h

theorem ProblemsInside.foldl_step (base : Path) {ds : List DirectiveLine}
    (hds : ∀ d ∈ ds, d.Inside size) (regions : List Bool) (h : c.ProblemsInside size) :
    (ds.foldl (Context.step base) (c, regions)).1.ProblemsInside size := by
  induction ds generalizing c regions with
  | nil => exact h
  | cons d ds ih =>
    obtain ⟨hd, hds⟩ := List.forall_mem_cons.mp hds
    exact ih hds _ (h.step base regions hd)

theorem resolve_problems (path : Path) (text : Text) (options : ProjectOptions) :
    (resolve path text options).ProblemsInside text.byteSize :=
  .foldl_step _ (DirectiveLine.all_inside text) [] nofun

end Context

end ScriptAnalyzer

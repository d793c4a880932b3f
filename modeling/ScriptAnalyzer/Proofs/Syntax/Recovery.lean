import ScriptAnalyzer.Proofs.Syntax.Declarations
import ScriptAnalyzer.Proofs.Syntax.Division

namespace ScriptAnalyzer

namespace ParserState

variable {s s' : ParserState} {read : List LaidToken}

theorem Reads.ascending (h : Reads read s s') (hs : Ascending s.prevEnd s.rest) :
    Ascending s'.prevEnd s'.rest := by
  rw [h.rest] at hs
  rw [h.prevEnd]
  exact hs.append.2

theorem rest_eq_cons (h : s.atEnd = false) : ∃ ts, s.rest = s.current :: ts := by
  unfold atEnd at h
  cases hrest : s.rest with
  | nil => simp [hrest] at h
  | cons t ts => exact ⟨ts, by simp [current, hrest]⟩

theorem current_of_head {t : LaidToken} (h : t ∈ s.rest.head?) : s.current = t := by
  obtain ⟨ts, hrest⟩ := List.head?_eq_some_iff.mp h
  simp [current, hrest]

theorem reads_reported (e : SyntaxError) (hend : s.atEnd = false) :
    Reads [s.current] s (s.report e).advance ∧ ErrorAt (s.report e).advance.errors e.span.start := by
  have hread := reads_current (s := s.report e) (by rw [atEnd_report, hend])
  rw [current_report] at hread
  obtain ⟨-, e', he', hstart⟩ := errors_report s e
  exact ⟨(reads_report s e).trans hread, e', hread.errors.subset he', hstart⟩

end ParserState

namespace Parser

open ParserState

variable {α : Type} {p : Parser α} {c n : Nat} {s s₁ : ParserState}

theorem Yields.of_forall {Q : α → ParserState → Prop} (h : ∀ a s', Q a s') : p.Yields s Q := h _ _

theorem Yields.and {Q R : α → ParserState → Prop} (hQ : p.Yields s Q) (hR : p.Yields s R) :
    p.Yields s fun a s' => Q a s' ∧ R a s' :=
  ⟨hQ, hR⟩

theorem reject_reads (hend : s.atEnd = false) :
    reject.Yields s fun _ s' => Reads [s.current] s s' ∧ ErrorAt s'.errors s.current.span.start := by
  simp only [reject, unexpected, yields_bind, yields_get, yields_skip, hend, Bool.false_eq_true,
    if_false, yields_error]
  exact reads_reported _ hend

theorem unexpected_reads (s : ParserState) :
    unexpected.Yields s fun _ s' => Reads [] s s' ∧ s'.errors ≠ [] := by
  have hreport : ∀ e, Reads [] s (s.report e) ∧ (s.report e).errors ≠ [] := by
    intro e
    obtain ⟨-, e', he', -⟩ := errors_report s e
    exact ⟨reads_report s e, List.ne_nil_of_mem he'⟩
  simp only [unexpected, yields_bind, yields_get]
  split <;> exact hreport _

theorem synchronize_reads (c : Nat) (s : ParserState) :
    (synchronize c).Yields s fun _ s' => ∃ skipped, Reads skipped s s' ∧ ∀ u ∈ skipped, ¬u.Halts c := by
  simp only [synchronize, skipWhile, yields_modify]
  refine ⟨_, ⟨List.takeWhile_append_dropWhile.symm, rfl, List.prefix_rfl, rfl, rfl, rfl, rfl⟩, ?_⟩
  intro u hu hhalts
  have hskip := List.all_eq_true.mp List.all_takeWhile u hu
  simp [hhalts.1, hhalts.2] at hskip

theorem typeDecl_span (n : Nat) (s : ParserState) :
    (typeDecl n).Yields s fun shape _ => ∀ span, (shape span).span = span := by
  simp only [typeDecl, yields_bind]
  refine .of_forall fun _ s₁ => .of_forall fun name s₂ => ?_
  cases name with
  | none => exact fun _ => rfl
  | some name =>
    simp only [yields_bind]
    refine .of_forall fun found s₃ => ?_
    cases found with
    | none => exact fun _ => rfl
    | some span =>
      simp only [yields_bind, yields_get]
      split <;> exact fun _ => rfl

theorem moduleDecl_span (n column : Nat) (s : ParserState) :
    (moduleDecl n column).Yields s fun shape _ => ∀ span, (shape span).span = span := by
  cases n with
  | zero => exact fun _ => rfl
  | succ n =>
    simp only [moduleDecl, yields_bind]
    refine .of_forall fun _ s₁ => .of_forall fun name s₂ => ?_
    cases name with
    | none => exact fun _ => rfl
    | some name =>
      simp only [yields_bind]
      refine .of_forall fun found s₃ => ?_
      cases found with
      | none => exact fun _ => rfl
      | some span =>
        simp only [yields_bind, yields_get]
        split <;> exact fun _ => rfl

theorem decl_span (n column : Nat) (s : ParserState) :
    (decl (n + 1) column).Yields s fun d s' =>
      d.span = ⟨s.current.span.start, max s'.prevEnd s.current.span.start⟩ := by
  simp only [decl, yields_bind, yields_get, yields_pure]
  split
  case h_1 =>
    simp only [yields_bind, yields_get]
    refine .of_forall fun b s₁ => ?_
    split <;> rfl
  case h_2 =>
    simp only [yields_bind]
    refine .of_forall fun _ s₁ => .of_forall fun path s₂ => ?_
    cases path <;> rfl
  case h_3 => exact (moduleDecl_span n column s).mono fun shape s₁ h => h _
  case h_4 => exact (typeDecl_span n s).mono fun shape s₁ h => h _
  case h_5 => rfl
  case h_6 => rfl
  case h_7 => rfl

theorem decl_reads (hend : s.atEnd = false) (hs : Ascending s.prevEnd s.rest) (hc : c ≤ s.offside) :
    (decl (n + 1) c).Yields { s with anchor := some s.rest.length } fun d s₁ =>
      (ifStuck s.rest.length reject).Yields s₁ fun _ s₂ => ∃ read, Reads (s.current :: read) s s₂ ∧
        d.Extends s₂.errors s.current read ∧ ∀ u ∈ read, Resumes c u →
          d.HasLetAt u.span.start ∨ ErrorAt s₂.errors u.span.start := by
  have hdecl := (declsTake (resuming c) (n + 1)).decl c { s with anchor := some s.rest.length }
    (Nat.le_refl c) hc
  refine (hdecl.and (decl_span n c _)).mono fun d s₁ h' => ?_
  obtain ⟨htakes, hspan⟩ := h'
  obtain ⟨ts, hrest⟩ := rest_eq_cons hend
  obtain ⟨read, hread, hkeywords⟩ := (passes_anchor s (some s.rest.length)).trans_takes htakes
  change d.span = ⟨s.current.span.start, max s₁.prevEnd s.current.span.start⟩ at hspan
  rw [hrest] at hs
  obtain ⟨hprev, hlt, hts⟩ := ascending_cons.mp hs
  -- a declaration that reads nothing stands at a token that is rejected behind it
  cases read with
  | nil =>
    have hsame : s₁.rest = s.rest := hread.rest.symm
    have hcurrent : s₁.current = s.current := by rw [current, hsame, hread.size, current]
    have hend₁ : s₁.atEnd = false := by rw [atEnd, hsame]; exact hend
    simp only [ifStuck, yields_bind, yields_get, hsame, if_true]
    refine (reject_reads hend₁).mono fun _ s₂ h' => ?_
    obtain ⟨hreject, herror⟩ := h'
    rw [hcurrent] at hreject herror
    refine ⟨[], hread.trans hreject, ⟨by rw [hspan], .inr ⟨rfl, ?_, herror⟩⟩, by simp⟩
    rw [hspan, hread.prevEnd]
    exact Nat.max_eq_right hprev
  | cons t read =>
    have hsplit := hread.rest
    rw [hrest, List.cons_append] at hsplit
    obtain ⟨ht, htail⟩ := List.cons.inj hsplit
    subst ht
    have hstuck : s₁.rest.length ≠ s.rest.length := by
      rw [hrest, htail, List.length_cons, List.length_append]
      omega
    simp only [ifStuck, yields_bind, yields_get, hstuck, if_false, yields_pure]
    rw [htail] at hts
    have hstop : s₁.prevEnd = lastStop s.current.span.stop read := by
      rw [hread.prevEnd, lastStop_cons]
    have hle := hts.append.1.le_lastStop
    refine ⟨read, hread, ⟨by rw [hspan], .inl ?_⟩, fun u hu hresumes => ?_⟩
    · rw [hspan, hstop]
      exact Nat.max_eq_left (by omega)
    · rcases hkeywords u (List.mem_cons_of_mem _ hu) hresumes with (hopening | hlet) | herror
      · have hplace : s.current.span.start = u.span.start := hopening.2
        have := (hts.append.1.of_mem hu).1
        omega
      · exact .inl hlet
      · exact .inr herror

theorem whenContinuing_reads (s : ParserState) :
    (when (!s.current.lineStart) unexpected).Yields s fun _ s' =>
      Reads [] s s' ∧ ((∀ t ∈ s'.rest.head?, t.lineStart = true) ∨ s'.errors ≠ []) := by
  cases hline : s.current.lineStart with
  | true => exact ⟨Reads.refl s, .inl fun t ht => current_of_head ht ▸ hline⟩
  | false => exact (unexpected_reads s).mono fun _ s' ⟨hread, herror⟩ => ⟨hread, .inr herror⟩

theorem leaves_of_beforeColumn {t : LaidToken} (h : s.beforeColumn c = true) (ht : t ∈ s.rest.head?) :
    t.Leaves c := by
  obtain ⟨ts, hrest⟩ := List.head?_eq_some_iff.mp ht
  simpa [beforeColumn, atEnd, current, hrest, LaidToken.Leaves] using h

theorem halts_of_stays (h : ¬s.beforeColumn c = true) :
    s.atEnd = false ∧ (s.current.lineStart = true → c ≤ s.current.column) := by
  simpa [beforeColumn] using h

theorem decls_divides (n : Nat) (hn : s.rest.length < n) (hs : Ascending s.prevEnd s.rest)
    (hc : c ≤ s.offside) :
    (decls n c).Yields s fun ds s' => s.errors <+: s'.errors ∧
      ∀ es, s'.errors ⊆ es → Divides c es s.rest ds := by
  induction n generalizing s with
  | zero => exact absurd hn (Nat.not_lt_zero _)
  | succ n ih =>
    simp only [decls, yields_bind, yields_get]
    split
    case isTrue hbefore =>
      exact ⟨List.prefix_rfl, fun es _ => .stop _ fun t => leaves_of_beforeColumn hbefore⟩
    case isFalse hstay =>
      obtain ⟨hend, hcolumn⟩ := halts_of_stays hstay
      split
      case isTrue hstray =>
        -- no declaration can start here: the token is reported and skipped, with what follows it
        simp only [yields_bind, yields_error, yields_skip]
        obtain ⟨hread, herror⟩ := reads_reported
          { cause := if s.current.lineStart then .offside else .unexpectedToken s.current.token.text
            span := s.current.span } hend
        refine (synchronize_reads c _).mono fun _ s₁ h' => ?_
        obtain ⟨skipped, hskip, hskipped⟩ := h'
        have hreads := hread.trans hskip
        have hlength := congrArg List.length hreads.rest
        refine (ih ?_ (hreads.ascending hs) (by rw [hreads.offside]; exact hc)).mono
          fun ds s₂ h' => ?_
        · simp only [List.length_append, List.length_cons, List.length_nil] at hlength
          omega
        · obtain ⟨hearlier, hdivides⟩ := h'
          refine ⟨hreads.errors.trans hearlier, fun es hes => ?_⟩
          rw [hreads.rest]
          refine .stray _ skipped _ ds (fun hstart => ?_) hskipped ?_ (hdivides es hes)
          · obtain ⟨hline, hle⟩ := hstart
            simp [hline] at hstray
            omega
          · exact herror.mono fun e he => hes (hearlier.subset (hskip.errors.subset he))
      case isFalse hstart =>
        have hline : s.current.lineStart = true ∧ s.current.column ≤ c := by simpa using hstart
        obtain ⟨n, rfl⟩ : ∃ m, n = m + 1 := by
          obtain ⟨ts, hrest⟩ := rest_eq_cons hend
          rw [hrest, List.length_cons] at hn
          exact ⟨n - 1, by omega⟩
        simp only [yields_bind, yields_setAnchor, yields_get, yields_pure]
        -- what is skipped behind the declaration stands right of the column, and is not reported
        refine (decl_reads hend hs hc).mono fun d s₁ h₁ => h₁.mono ?_
        rintro _ s₂ ⟨read, hread, hextent, hkeywords⟩
        refine (whenContinuing_reads s₂).mono fun _ s₃ h' => ?_
        obtain ⟨hsame, hbehind⟩ := h'
        refine (synchronize_reads c s₃).mono fun _ s₄ h' => ?_
        obtain ⟨skipped, hskip, hskipped⟩ := h'
        have hreads := (hread.trans hsame).trans hskip
        have hlength := congrArg List.length hreads.rest
        refine (ih ?_ (hreads.ascending hs) (by rw [hreads.offside]; exact hc)).mono
          fun ds s₅ h' => ?_
        · simp only [List.length_append, List.length_cons] at hlength
          omega
        · obtain ⟨hearlier, hdivides⟩ := h'
          refine ⟨hreads.errors.trans hearlier, fun es hes => ?_⟩
          have hes₄ : s₄.errors ⊆ es := fun e he => hes (hearlier.subset he)
          have hes₂ : s₂.errors ⊆ es := fun e he =>
            hes₄ ((hsame.errors.trans hskip.errors).subset he)
          rw [hread.rest, hsame.rest, List.nil_append, hskip.rest, List.cons_append]
          refine .decl _ read skipped _ d ds hline.1 ?_ (hextent.mono hes₂) ?_ hskipped ?_
            (hdivides es hes)
          · exact Nat.le_antisymm hline.2 (hcolumn hline.1)
          · exact fun u hu hresumes => (hkeywords u hu hresumes).imp_right fun h => h.mono hes₂
          · rw [← hskip.rest]
            refine hbehind.imp_right fun hne hnil => hne ?_
            exact List.eq_nil_of_subset_nil (hnil ▸ fun e he => hes₄ (hskip.errors.subset he))

theorem ident?_reads (s : ParserState) :
    ident?.Yields s fun name s' => name = none ∧ s' = s ∨
      ∃ head, name = some head ∧ head.span = s.current.span ∧ s.atEnd = false ∧ s' = s.advance := by
  simp only [ident?, yields_bind, yields_get]
  split
  case h_1 text hname =>
    refine .inr ⟨_, rfl, rfl, ?_, rfl⟩
    cases hend : s.atEnd with
    | false => rfl
    | true =>
      rw [peek, current, List.isEmpty_iff.mp hend] at hname
      cases hname
  case h_2 => exact .inl ⟨rfl, rfl⟩

theorem longIdent?_reads (hs : Ascending s.prevEnd s.rest) :
    longIdent?.Yields s fun name s' =>
      ∃ read, Reads read s s' ∧ ∀ n ∈ name, n.span.stop = s'.prevEnd := by
  simp only [longIdent?, yields_bind]
  refine (ident?_reads s).mono fun head s₁ hhead => ?_
  rcases hhead with ⟨rfl, rfl⟩ | ⟨head, rfl, hspan, hend, rfl⟩
  · exact ⟨[], Reads.refl _, by simp⟩
  · simp only [yields_bind, yields_get, yields_modify, yields_pure]
    have hfirst := reads_current hend
    obtain ⟨read, hread, -, hstop⟩ := segments_read s.advance.rest
    refine ⟨[s.current] ++ read, hfirst.trans
      ⟨hread, (hstop _).symm, List.prefix_rfl, rfl, rfl, rfl, rfl⟩, fun n hn => ?_⟩
    have hle := (hread ▸ hfirst.ascending hs).append.1.le_lastStop
    have hprev : s.advance.prevEnd = head.span.stop := by rw [hfirst.prevEnd, hspan]; rfl
    rw [hstop, hprev] at hle
    obtain rfl := Option.some.inj hn
    simp only [LongIdent.span, LongIdent.last, Span.merge, hprev]
    cases hlast : (segments s.advance.rest).getLast? with
    | none => simp
    | some last =>
      rw [hlast] at hle
      exact Nat.max_eq_right hle

theorem header_reads (hs : Ascending s.prevEnd s.rest) :
    header.Yields s fun name s' => ∃ read, Reads read s s' ∧
      (read = [] ∧ name = none ∨ name = none ∧ s'.errors ≠ [] ∨
        ∃ n, name = some n ∧ n.span.stop = s'.prevEnd) := by
  have hnothing : (pure none : Parser (Option LongIdent)).Yields s fun name s' =>
      ∃ read, Reads read s s' ∧ (read = [] ∧ name = none ∨ name = none ∧ s'.errors ≠ [] ∨
        ∃ n, name = some n ∧ n.span.stop = s'.prevEnd) :=
    ⟨[], Reads.refl s, .inl ⟨rfl, rfl⟩⟩
  simp only [header, yields_bind, yields_get]
  split
  · exact hnothing
  split
  · exact hnothing
  simp only [yields_bind, yields_skip]
  obtain ⟨first, hfirst⟩ : ∃ first, Reads first s s.advance :=
    (reads_advance s).elim (fun h => ⟨_, h⟩) fun h => ⟨_, h.2⟩
  refine (longIdent?_reads (hfirst.ascending hs)).mono fun name s₁ ⟨read, hread, hstop⟩ => ?_
  cases name with
  | some n => exact ⟨_, hfirst.trans hread, .inr (.inr ⟨n, rfl, hstop n rfl⟩)⟩
  | none =>
    simp only [yields_bind, yields_pure, true_and]
    refine (unexpected_reads s₁).mono fun _ s₂ ⟨hsame, herror⟩ => ?_
    exact ⟨_, (hfirst.trans hread).trans hsame, .inr (.inl herror)⟩

theorem file_divides (n : Nat) (hn : s.rest.length < n) (hs : Ascending s.prevEnd s.rest) :
    (file n).Yields s fun r s' => r.1 = (header.run s).1 ∧ (header.run s).2.errors ⊆ s'.errors ∧
      ∀ es, s'.errors ⊆ es →
        Divides (header.run s).2.current.column es (header.run s).2.rest r.2 := by
  obtain ⟨read, hread, -⟩ := header_reads hs
  have hlength := congrArg List.length hread.rest
  rw [List.length_append] at hlength
  simp only [file, withOffside, yields_bind, yields_get, yields_modify, yields_pure]
  rw [yields_run header]
  refine (decls_divides (s := { (header.run s).2 with offside := (header.run s).2.current.column })
    n (by simp only; omega) (hread.ascending hs) (Nat.le_refl _)).mono
      fun ds s₁ h' => ?_
  obtain ⟨herrors, hdivides⟩ := h'
  exact ⟨rfl, herrors.subset, hdivides⟩

end Parser

namespace SyntaxFile

open ScriptAnalyzer.Parser ParserState

variable (path : Path) (text : Text) (kind : SourceKind) (defines : List String)

def behindHeader : ParserState := (Parser.header.run (start text kind defines)).2

theorem start_ascending :
    Ascending (start text kind defines).prevEnd (start text kind defines).rest :=
  significantTokens_ascend text defines

theorem lt_depthBound (n : Nat) : n < depthBound n := by
  simp only [depthBound]
  omega

theorem parse_divides :
    Divides (behindHeader text kind defines).current.column (parse path text kind defines).errors
      (behindHeader text kind defines).rest (parse path text kind defines).decls := by
  obtain ⟨-, -, hdivides⟩ := file_divides _ (lt_depthBound _) (start_ascending text kind defines)
  refine hdivides _ fun e he => ?_
  exact List.mem_mergeSort.mpr he

theorem parse_errors : (behindHeader text kind defines).errors ⊆ (parse path text kind defines).errors := by
  obtain ⟨-, herrors, -⟩ := file_divides _ (lt_depthBound _) (start_ascending text kind defines)
  exact fun e he => List.mem_mergeSort.mpr (herrors he)

theorem parse_header :
    ∃ read, (significantTokens text defines).1 = read ++ (behindHeader text kind defines).rest ∧
      (behindHeader text kind defines).prevEnd = lastStop 0 read ∧
      (read = [] ∧ (parse path text kind defines).header = none ∨
        (parse path text kind defines).header = none ∧ (parse path text kind defines).errors ≠ [] ∨
        ∃ n, (parse path text kind defines).header = some n ∧
          n.span.stop = (behindHeader text kind defines).prevEnd) := by
  obtain ⟨read, hread, hname⟩ := header_reads (start_ascending text kind defines)
  refine ⟨read, hread.rest, hread.prevEnd, ?_⟩
  rcases hname with hnone | ⟨hnone, herrors⟩ | hsome
  · exact .inl hnone
  · refine .inr (.inl ⟨hnone, fun hnil => herrors ?_⟩)
    exact List.eq_nil_of_subset_nil (hnil ▸ parse_errors path text kind defines)
  · exact .inr (.inr hsome)

theorem behindHeader_ascending :
    Ascending (behindHeader text kind defines).prevEnd (behindHeader text kind defines).rest := by
  obtain ⟨read, hread, -⟩ := header_reads (start_ascending text kind defines)
  exact hread.ascending (start_ascending text kind defines)

/-- The token belongs to the header of the file or lies inside one of its declarations. -/
def Covers (f : SyntaxFile) (t : LaidToken) : Prop :=
  (∃ name ∈ f.header, t.span.stop ≤ name.span.stop) ∨ ∃ d ∈ f.decls, d.span.contains t.span = true

instance (f : SyntaxFile) (t : LaidToken) : Decidable (f.Covers t) :=
  inferInstanceAs (Decidable ((∃ name ∈ f.header, t.span.stop ≤ name.span.stop) ∨
    ∃ d ∈ f.decls, d.span.contains t.span = true))

theorem covers_all_iff (herrors : (parse path text kind defines).errors = []) :
    (∀ t ∈ (significantTokens text defines).1, (parse path text kind defines).Covers t) ↔
      ∀ t ∈ (behindHeader text kind defines).rest,
        ∃ d ∈ (parse path text kind defines).decls, d.span.contains t.span = true := by
  obtain ⟨read, hsplit, hprev, hname⟩ := parse_header path text kind defines
  have hall : Ascending 0 (significantTokens text defines).1 := start_ascending text kind defines
  rw [hsplit] at hall ⊢
  obtain ⟨hread, hrest⟩ := hall.append
  constructor
  · intro hcovers t ht
    refine (hcovers t (List.mem_append_right _ ht)).resolve_left ?_
    rintro ⟨name, hheader, hstop⟩
    obtain ⟨hstart, hlt⟩ := hrest.of_mem ht
    rcases hname with ⟨-, hnone⟩ | ⟨-, hne⟩ | ⟨n, hsome, hend⟩
    · rw [hnone] at hheader
      cases hheader
    · exact hne herrors
    · rw [hsome] at hheader
      obtain rfl := Option.some.inj hheader
      omega
  · intro hcovers t ht
    rcases List.mem_append.mp ht with ht | ht
    · rcases hname with ⟨hnil, -⟩ | ⟨-, hne⟩ | ⟨n, hsome, hend⟩
      · rw [hnil] at ht
        cases ht
      · exact absurd herrors hne
      · have := hread.stop_le_lastStop ht
        exact .inl ⟨n, hsome, by omega⟩
    · exact .inr (hcovers t ht)

theorem complete_covers_iff (herrors : (parse path text kind defines).errors = []) :
    (∀ t ∈ (significantTokens text defines).1, (parse path text kind defines).Covers t) ↔
      ∀ d ∈ (parse path text kind defines).decls, ∀ t,
        d.Before (behindHeader text kind defines).rest t →
          t.column = (behindHeader text kind defines).current.column := by
  have hdivides := parse_divides path text kind defines
  rw [herrors] at hdivides
  rw [covers_all_iff path text kind defines herrors]
  refine ⟨hdivides.column_of_covers (behindHeader_ascending text kind defines),
    hdivides.covers_of_column (behindHeader_ascending text kind defines) fun t ht => ?_⟩
  rw [current_of_head ht]

theorem complete_covers_two_bindings :
    (parse ⟨"a.glx"⟩ "let x = 1\nlet y = 2".toList .script []).errors = [] ∧
      ∀ d ∈ (parse ⟨"a.glx"⟩ "let x = 1\nlet y = 2".toList .script []).decls, ∀ t,
        d.Before (behindHeader "let x = 1\nlet y = 2".toList .script []).rest t →
          t.column = (behindHeader "let x = 1\nlet y = 2".toList .script []).current.column :=
  ⟨by decide +kernel, (complete_covers_iff ⟨"a.glx"⟩ "let x = 1\nlet y = 2".toList .script []
    (by decide +kernel)).mp (by decide +kernel)⟩

theorem complete_misses_indented_line :
    (parse ⟨"a.glx"⟩ "let x = 1\n  let y = 2".toList .script []).errors = [] ∧
      ∃ t ∈ (significantTokens "let x = 1\n  let y = 2".toList []).1,
        ¬(parse ⟨"a.glx"⟩ "let x = 1\n  let y = 2".toList .script []).Covers t := by
  decide +kernel

variable {t : LaidToken}

theorem keyword_starts_decl_iff (ht : t ∈ (significantTokens text defines).1)
    (hresumes : Resumes (behindHeader text kind defines).current.column t) :
    (∃ d ∈ (parse path text kind defines).decls, d.span.start = t.span.start) ↔
      t ∈ (behindHeader text kind defines).rest ∧
      (∀ d ∈ (parse path text kind defines).decls,
        ¬d.Swallows (parse path text kind defines).errors t) ∧
      ∀ u ∈ (behindHeader text kind defines).rest,
        ¬LaidToken.Ends (behindHeader text kind defines).current.column
          (parse path text kind defines).decls t u := by
  have hdivides := parse_divides path text kind defines
  have hascending := behindHeader_ascending text kind defines
  constructor
  · rintro ⟨d, hd, hstart⟩
    obtain ⟨read, hsplit, -, -⟩ := parse_header path text kind defines
    have hall : Ascending 0 (significantTokens text defines).1 := start_ascending text kind defines
    rw [hsplit] at hall ht
    have hbehind : t ∈ (behindHeader text kind defines).rest := by
      refine (List.mem_append.mp ht).resolve_left fun hread => ?_
      obtain ⟨u, hu, hplace, -⟩ := hdivides.starts hd
      have := hall.append.1.stop_le_lastStop hread
      have := (hall.append.1.of_mem hread).2
      have := (hall.append.2.of_mem hu).1
      omega
    exact ⟨hbehind, (hdivides.starts_iff hascending hbehind hresumes).mp ⟨d, hd, hstart⟩⟩
  · rintro ⟨hbehind, hfree⟩
    exact (hdivides.starts_iff hascending hbehind hresumes).mpr hfree

theorem keyword_starts_second_binding :
    (⟨.keyword .letKw, ⟨10, 13⟩, 0, true⟩ : LaidToken) ∈
        (significantTokens "let x = 1\nlet y = 2".toList []).1 ∧
      ∀ d ∈ (parse ⟨"a.glx"⟩ "let x = 1\nlet y = 2".toList .script []).decls,
        ¬d.Swallows (parse ⟨"a.glx"⟩ "let x = 1\nlet y = 2".toList .script []).errors
          ⟨.keyword .letKw, ⟨10, 13⟩, 0, true⟩ :=
  ⟨by decide +kernel, ((keyword_starts_decl_iff ⟨"a.glx"⟩ "let x = 1\nlet y = 2".toList .script []
    (t := ⟨.keyword .letKw, ⟨10, 13⟩, 0, true⟩) (by decide +kernel) (by decide +kernel)).mp
      (by decide +kernel)).2.1⟩

theorem operator_swallows_binding :
    ∃ t ∈ (behindHeader "let x = 1 +\nlet y = 2".toList .script []).rest,
      Resumes (behindHeader "let x = 1 +\nlet y = 2".toList .script []).current.column t ∧
        ¬∃ d ∈ (parse ⟨"a.glx"⟩ "let x = 1 +\nlet y = 2".toList .script []).decls,
          d.span.start = t.span.start := by
  decide +kernel

end SyntaxFile
end ScriptAnalyzer

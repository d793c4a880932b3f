import ScriptAnalyzer.Proofs.Syntax.LetPlaces
import ScriptAnalyzer.Proofs.Syntax.Reading
import ScriptAnalyzer.Proofs.Token.Order

namespace ScriptAnalyzer

def Ascending (place : Nat) (ts : List LaidToken) : Prop := Span.Ascend place (ts.map (·.span))

theorem ascending_cons {place : Nat} {t : LaidToken} {ts : List LaidToken} :
    Ascending place (t :: ts) ↔
      place ≤ t.span.start ∧ t.span.start < t.span.stop ∧ Ascending t.span.stop ts :=
  Iff.rfl

namespace Ascending

variable {place : Nat} {t : LaidToken} {xs ys ts : List LaidToken}

theorem of_mem (h : Ascending place ts) (ht : t ∈ ts) :
    place ≤ t.span.start ∧ t.span.start < t.span.stop :=
  Span.Ascend.of_mem h (List.mem_map_of_mem ht)

theorem append (h : Ascending place (xs ++ ys)) :
    Ascending place xs ∧ Ascending (lastStop place xs) ys := by
  induction xs generalizing place with
  | nil => exact ⟨trivial, h⟩
  | cons x xs ih =>
    obtain ⟨hle, hlt, hrest⟩ := ascending_cons.mp h
    obtain ⟨hxs, hys⟩ := ih hrest
    rw [lastStop_cons]
    exact ⟨⟨hle, hlt, hxs⟩, hys⟩

theorem le_lastStop (h : Ascending place ts) : place ≤ lastStop place ts := by
  induction ts generalizing place with
  | nil => exact Nat.le_refl place
  | cons t ts ih =>
    obtain ⟨hle, hlt, hts⟩ := ascending_cons.mp h
    have := ih hts
    rw [lastStop_cons]
    omega

theorem stop_le_lastStop (h : Ascending place ts) (ht : t ∈ ts) : t.span.stop ≤ lastStop place ts := by
  induction ts generalizing place with
  | nil => cases ht
  | cons u ts ih =>
    obtain ⟨hle, hlt, hts⟩ := ascending_cons.mp h
    rw [lastStop_cons]
    rcases List.mem_cons.mp ht with rfl | ht
    · exact le_lastStop hts
    · exact ih hts ht

theorem behind {skipped : List LaidToken} (h : Ascending place (t :: (skipped ++ ts))) :
    Ascending (lastStop place (t :: skipped)) ts := by
  have h' : Ascending place ((t :: skipped) ++ ts) := h
  exact h'.append.2

end Ascending

def LaidToken.Halts (c : Nat) (t : LaidToken) : Prop := t.lineStart = true ∧ t.column ≤ c

def LaidToken.Leaves (c : Nat) (t : LaidToken) : Prop := t.lineStart = true ∧ t.column < c

structure Resumes (c : Nat) (t : LaidToken) : Prop where
  lineStart : t.lineStart = true
  column : t.column = c
  opens : t.token.opensDecl = true

instance (c : Nat) (t : LaidToken) : Decidable (Resumes c t) :=
  decidable_of_iff (t.lineStart = true ∧ t.column = c ∧ t.token.opensDecl = true)
    ⟨fun ⟨hline, hcolumn, hopens⟩ => ⟨hline, hcolumn, hopens⟩,
      fun h => ⟨h.lineStart, h.column, h.opens⟩⟩

theorem Resumes.halts {c : Nat} {t : LaidToken} (h : Resumes c t) : t.Halts c :=
  ⟨h.lineStart, Nat.le_of_eq h.column⟩

theorem LaidToken.Leaves.halts {c : Nat} {t : LaidToken} (h : t.Leaves c) : t.Halts c :=
  ⟨h.1, Nat.le_of_lt h.2⟩

theorem resuming (c : Nat) : Resuming (Resumes c) c := ⟨Resumes.lineStart, Resumes.column, Resumes.opens⟩

def ErrorAt (es : List SyntaxError) (place : Nat) : Prop := ∃ e ∈ es, e.span.start = place

theorem ErrorAt.mono {es es' : List SyntaxError} {place : Nat} (h : ErrorAt es place) (hes : es ⊆ es') :
    ErrorAt es' place := by
  obtain ⟨e, he, hstart⟩ := h
  exact ⟨e, hes he, hstart⟩

/-- The declaration starts at `t` and ends with the last of the tokens `read` behind it. A token that
starts no declaration is an error of its own. -/
structure Decl.Extends (es : List SyntaxError) (d : Decl) (t : LaidToken) (read : List LaidToken) :
    Prop where
  start : d.span.start = t.span.start
  stop : d.span.stop = lastStop t.span.stop read ∨
    read = [] ∧ d.span.stop = t.span.start ∧ ErrorAt es t.span.start

namespace Decl.Extends

variable {es : List SyntaxError} {d : Decl} {t u : LaidToken} {read ts : List LaidToken} {place : Nat}

theorem mono {es' : List SyntaxError} (h : d.Extends es t read) (hes : es ⊆ es') :
    d.Extends es' t read :=
  ⟨h.start, h.stop.imp_right fun ⟨hnone, hstop, herror⟩ => ⟨hnone, hstop, herror.mono hes⟩⟩

theorem start_le_stop (h : d.Extends es t read) (ht : Ascending place (t :: read)) :
    d.span.start ≤ d.span.stop := by
  obtain ⟨-, hlt, hread⟩ := ascending_cons.mp ht
  have := Ascending.le_lastStop hread
  rw [h.start]
  rcases h.stop with hstop | ⟨-, hstop, -⟩ <;> omega

theorem stop_le (h : d.Extends es t read) (ht : Ascending place (t :: read)) :
    d.span.stop ≤ lastStop t.span.stop read := by
  obtain ⟨-, hlt, hread⟩ := ascending_cons.mp ht
  have := Ascending.le_lastStop hread
  rcases h.stop with hstop | ⟨-, hstop, -⟩ <;> omega

theorem strictly_inside (h : d.Extends es t read) (ht : Ascending place (t :: read)) (hu : u ∈ read) :
    d.span.start < u.span.start ∧ u.span.stop ≤ d.span.stop := by
  obtain ⟨-, hlt, hread⟩ := ascending_cons.mp ht
  have hstart := (Ascending.of_mem hread hu).1
  have hstop := Ascending.stop_le_lastStop hread hu
  rw [h.start]
  rcases h.stop with hend | ⟨hnone, -, -⟩
  · omega
  · rw [hnone] at hu
    cases hu

theorem contains_of_read (h : d.Extends es t read) (ht : Ascending place (t :: read)) (hu : u ∈ read) :
    d.span.contains u.span = true := by
  obtain ⟨hstart, hstop⟩ := h.strictly_inside ht hu
  simp only [Span.contains, Bool.and_eq_true, decide_eq_true_eq]
  omega

theorem contains_first (h : d.Extends [] t read) (ht : Ascending place (t :: read)) :
    d.span.contains t.span = true := by
  obtain ⟨-, hlt, hread⟩ := ascending_cons.mp ht
  have := Ascending.le_lastStop hread
  rcases h.stop with hstop | ⟨-, -, e, he, -⟩
  · simp only [Span.contains, Bool.and_eq_true, decide_eq_true_eq, h.start]
    omega
  · cases he

end Decl.Extends

/-- The declarations `ds` at the column `c` divide the tokens; `es` are the errors of the file. -/
inductive Divides (c : Nat) (es : List SyntaxError) : List LaidToken → List Decl → Prop
  | stop (ts : List LaidToken) (hend : ∀ t ∈ ts.head?, t.Leaves c) : Divides c es ts []
  | stray (t : LaidToken) (skipped ts : List LaidToken) (ds : List Decl) (hstray : ¬t.Halts c)
      (hskipped : ∀ u ∈ skipped, ¬u.Halts c) (herror : ErrorAt es t.span.start)
      (hrest : Divides c es ts ds) : Divides c es (t :: (skipped ++ ts)) ds
  | decl (t : LaidToken) (read skipped ts : List LaidToken) (d : Decl) (ds : List Decl)
      (hline : t.lineStart = true) (hcolumn : t.column = c) (hextent : d.Extends es t read)
      (hread : ∀ u ∈ read, Resumes c u → d.HasLetAt u.span.start ∨ ErrorAt es u.span.start)
      (hskipped : ∀ u ∈ skipped, ¬u.Halts c)
      (hbehind : (∀ u ∈ (skipped ++ ts).head?, u.lineStart = true) ∨ es ≠ [])
      (hrest : Divides c es ts ds) : Divides c es (t :: (read ++ (skipped ++ ts))) (d :: ds)

namespace Divides

variable {c place : Nat} {es : List SyntaxError} {ts : List LaidToken} {ds : List Decl}

theorem behind_first {t : LaidToken} {read skipped ts : List LaidToken}
    (h : Ascending place (t :: (read ++ (skipped ++ ts)))) :
    Ascending place (t :: read) ∧ Ascending (lastStop t.span.stop read) (skipped ++ ts) ∧
      Ascending (lastStop (lastStop t.span.stop read) skipped) ts := by
  have h' : Ascending place ((t :: read) ++ (skipped ++ ts)) := h
  have hall := h'.append
  rw [lastStop_cons] at hall
  exact ⟨hall.1, hall.2, hall.2.append.2⟩

theorem starts (h : Divides c es ts ds) {d : Decl} (hd : d ∈ ds) :
    ∃ t ∈ ts, d.span.start = t.span.start ∧ t.lineStart = true ∧ t.column = c := by
  induction h with
  | stop => cases hd
  | stray t skipped ts ds _ _ _ _ ih =>
    obtain ⟨u, hu, hd⟩ := ih hd
    exact ⟨u, by simp [hu], hd⟩
  | decl t read skipped ts d' ds hline hcolumn hextent _ _ _ _ ih =>
    rcases List.mem_cons.mp hd with rfl | hd
    · exact ⟨t, by simp, hextent.start, hline, hcolumn⟩
    · obtain ⟨u, hu, hd⟩ := ih hd
      exact ⟨u, by simp [hu], hd⟩

theorem start_le_stop (h : Divides c es ts ds) (hts : Ascending place ts) {d : Decl} (hd : d ∈ ds) :
    d.span.start ≤ d.span.stop := by
  induction h generalizing place with
  | stop => cases hd
  | stray t skipped ts ds _ _ _ _ ih => exact ih (Ascending.behind hts) hd
  | decl t read skipped ts d' ds _ _ hextent _ _ _ _ ih =>
    obtain ⟨hfirst, -, hrest⟩ := behind_first hts
    rcases List.mem_cons.mp hd with rfl | hd
    · exact hextent.start_le_stop hfirst
    · exact ih hrest hd

theorem stop_le_start {t : LaidToken} {read skipped ts : List LaidToken} {d : Decl}
    (hts : Ascending place (t :: (read ++ (skipped ++ ts)))) (hextent : d.Extends es t read)
    {u : LaidToken} (hu : u ∈ skipped ++ ts) : d.span.stop ≤ u.span.start := by
  obtain ⟨hfirst, hbehind, -⟩ := behind_first hts
  exact Nat.le_trans (hextent.stop_le hfirst) (hbehind.of_mem hu).1

theorem pairwise (h : Divides c es ts ds) (hts : Ascending place ts) :
    ds.Pairwise fun d d' => d.span.stop ≤ d'.span.start := by
  induction h generalizing place with
  | stop => exact .nil
  | stray t skipped ts ds _ _ _ _ ih => exact ih (Ascending.behind hts)
  | decl t read skipped ts d ds _ _ hextent _ _ _ hrest ih =>
    refine .cons (fun d' hd' => ?_) (ih (behind_first hts).2.2)
    obtain ⟨u, hu, hstart, -⟩ := hrest.starts hd'
    rw [hstart]
    exact stop_le_start hts hextent (List.mem_append_right _ hu)

end Divides

structure Decl.Before (d : Decl) (ts : List LaidToken) (u : LaidToken) : Prop where
  mem : u ∈ ts
  stop_le : d.span.stop ≤ u.span.start
  first : ∀ v ∈ ts, d.span.stop ≤ v.span.start → u.span.start ≤ v.span.start

namespace Decl.Before

variable {d : Decl} {place : Nat} {u v : LaidToken} {xs ts : List LaidToken}

theorem head (h : d.Before (v :: ts) u) (hts : Ascending place (v :: ts))
    (hv : d.span.stop ≤ v.span.start) : u = v := by
  obtain ⟨-, hlt, hrest⟩ := ascending_cons.mp hts
  rcases List.mem_cons.mp h.mem with rfl | hu
  · rfl
  · have := (hrest.of_mem hu).1
    have := h.first v (by simp) hv
    omega

theorem of_head (hts : Ascending place (v :: ts)) (hv : d.span.stop ≤ v.span.start) :
    d.Before (v :: ts) v where
  mem := by simp
  stop_le := hv
  first := by
    intro w hw _
    obtain ⟨-, hlt, hrest⟩ := ascending_cons.mp hts
    rcases List.mem_cons.mp hw with rfl | hw
    · exact Nat.le_refl _
    · have := (hrest.of_mem hw).1
      omega

theorem append_iff (hxs : ∀ x ∈ xs, x.span.start < d.span.stop) :
    d.Before (xs ++ ts) u ↔ d.Before ts u := by
  constructor
  · intro h
    rcases List.mem_append.mp h.mem with hu | hu
    · exact absurd h.stop_le (Nat.not_le_of_lt (hxs u hu))
    · exact ⟨hu, h.stop_le, fun v hv => h.first v (List.mem_append_right _ hv)⟩
  · intro h
    refine ⟨List.mem_append_right _ h.mem, h.stop_le, fun v hv hstop => ?_⟩
    rcases List.mem_append.mp hv with hv | hv
    · exact absurd hstop (Nat.not_le_of_lt (hxs v hv))
    · exact h.first v hv hstop

end Decl.Before

namespace Divides

variable {c place : Nat} {es : List SyntaxError} {t u v : LaidToken}
  {read skipped ts : List LaidToken} {d : Decl} {ds : List Decl}

theorem before_first_iff (hts : Ascending place (t :: (read ++ (skipped ++ ts))))
    (hextent : d.Extends [] t read) :
    d.Before (t :: (read ++ (skipped ++ ts))) u ↔ d.Before (skipped ++ ts) u := by
  obtain ⟨hfirst, -, -⟩ := behind_first hts
  rw [← List.cons_append]
  refine Decl.Before.append_iff fun x hx => ?_
  have hx' := (hfirst.of_mem hx).2
  have hin : d.span.contains x.span = true := by
    rcases List.mem_cons.mp hx with rfl | hx
    · exact hextent.contains_first hfirst
    · exact hextent.contains_of_read hfirst hx
  simp only [Span.contains, Bool.and_eq_true, decide_eq_true_eq] at hin
  omega

theorem before_later_iff (hts : Ascending place (t :: (read ++ (skipped ++ ts))))
    (hrest : Divides c es ts ds) (hd : d ∈ ds) :
    d.Before (t :: (read ++ (skipped ++ ts))) u ↔ d.Before ts u := by
  have hsplit : t :: (read ++ (skipped ++ ts)) = (t :: (read ++ skipped)) ++ ts := by simp
  rw [hsplit] at hts ⊢
  obtain ⟨hpre, hpost⟩ := hts.append
  refine Decl.Before.append_iff fun x hx => ?_
  obtain ⟨w, hw, hstart, -⟩ := hrest.starts hd
  have hx' := (hpre.of_mem hx).2
  have hstop := hpre.stop_le_lastStop hx
  have hw' := (hpost.of_mem hw).1
  have hle := hrest.start_le_stop hpost hd
  omega

theorem covers_of_column (h : Divides c [] ts ds) (hts : Ascending place ts)
    (hhead : ∀ t ∈ ts.head?, t.column = c)
    (hbefore : ∀ d ∈ ds, ∀ u, d.Before ts u → u.column = c) :
    ∀ t ∈ ts, ∃ d ∈ ds, d.span.contains t.span = true := by
  induction h generalizing place with
  | stop ts hend =>
    intro t ht
    cases ts with
    | nil => cases ht
    | cons v ts =>
      have := (hend v rfl).2
      have := hhead v rfl
      omega
  | stray t skipped ts ds _ _ herror _ _ =>
    obtain ⟨e, he, -⟩ := herror
    cases he
  | decl t read skipped ts d ds hline hcolumn hextent _ hskipped hbehind hrest ih =>
    obtain ⟨hfirst, hnext, hlast⟩ := behind_first hts
    have hnextColumn : ∀ v ∈ (skipped ++ ts).head?, v.column = c := by
      intro v hv
      obtain ⟨rest, hrest⟩ := List.head?_eq_some_iff.mp hv
      have hstop := stop_le_start hts hextent (by rw [hrest]; simp : v ∈ skipped ++ ts)
      rw [hrest] at hnext
      refine hbefore d (by simp) v ((before_first_iff hts hextent).mpr ?_)
      rw [hrest]
      exact .of_head hnext hstop
    -- a line at the column is not skipped, and only a line follows a declaration without errors
    have hnone : skipped = [] := by
      cases skipped with
      | nil => rfl
      | cons v skipped =>
        have hvline := (hbehind.resolve_right (fun h => h rfl)) v rfl
        exact absurd ⟨hvline, Nat.le_of_eq (hnextColumn v rfl)⟩ (hskipped v (by simp))
    subst hnone
    have hcovered := ih hlast hnextColumn fun d' hd' u hu =>
      hbefore d' (by simp [hd']) u ((before_later_iff hts hrest hd').mpr hu)
    intro u hu
    simp only [List.nil_append, List.mem_cons, List.mem_append] at hu
    rcases hu with rfl | hu | hu
    · exact ⟨d, by simp, hextent.contains_first hfirst⟩
    · exact ⟨d, by simp, hextent.contains_of_read hfirst hu⟩
    · obtain ⟨d', hd', hin⟩ := hcovered u hu
      exact ⟨d', by simp [hd'], hin⟩

theorem head_column (h : Divides c [] (v :: ts) ds) (hd : d ∈ ds) : v.column = c := by
  cases h with
  | stop => cases hd
  | stray _ _ _ _ _ _ herror =>
    obtain ⟨e, he, -⟩ := herror
    cases he
  | decl _ _ _ _ _ _ _ hcolumn => exact hcolumn

theorem column_of_covers (h : Divides c [] ts ds) (hts : Ascending place ts)
    (hcovered : ∀ t ∈ ts, ∃ d ∈ ds, d.span.contains t.span = true) :
    ∀ d ∈ ds, ∀ u, d.Before ts u → u.column = c := by
  induction h generalizing place with
  | stop => simp
  | stray t skipped ts ds _ _ herror _ _ =>
    obtain ⟨e, he, -⟩ := herror
    cases he
  | decl t read skipped ts d ds hline hcolumn hextent _ hskipped hbehind hrest ih =>
    obtain ⟨hfirst, hnext, hlast⟩ := behind_first hts
    have hlater : ∀ u ∈ skipped ++ ts, ∃ d' ∈ ds, d'.span.contains u.span = true := by
      intro u hu
      obtain ⟨d', hd', hin⟩ := hcovered u (by
        simp only [List.mem_cons, List.mem_append] at hu ⊢
        exact .inr (.inr hu))
      rcases List.mem_cons.mp hd' with rfl | hd'
      · have := stop_le_start hts hextent hu
        have := (hnext.of_mem hu).2
        simp only [Span.contains, Bool.and_eq_true, decide_eq_true_eq] at hin
        omega
      · exact ⟨d', hd', hin⟩
    -- a skipped token stands in front of all later declarations
    have hnone : skipped = [] := by
      cases skipped with
      | nil => rfl
      | cons v skipped =>
        obtain ⟨d', hd', hin⟩ := hlater v (by simp)
        obtain ⟨w, hw, hstart, -⟩ := hrest.starts hd'
        obtain ⟨-, hlt, hskip⟩ := ascending_cons.mp hnext
        have := (hskip.of_mem (List.mem_append_right _ hw)).1
        simp only [Span.contains, Bool.and_eq_true, decide_eq_true_eq] at hin
        omega
    subst hnone
    intro d' hd' u hu
    rcases List.mem_cons.mp hd' with rfl | hd'
    · have hu := (before_first_iff hts hextent).mp hu
      rw [List.nil_append] at hu hlater hnext
      cases ts with
      | nil => cases hu.mem
      | cons v ts =>
        obtain ⟨d'', hd'', -⟩ := hlater v (by simp)
        rw [hu.head hnext (stop_le_start hts hextent (by simp))]
        exact hrest.head_column hd''
    · exact ih hlast hlater d' hd' u ((before_later_iff hts hrest hd').mp hu)

end Divides

def Decl.Swallows (es : List SyntaxError) (d : Decl) (t : LaidToken) : Prop :=
  d.span.start < t.span.start ∧ t.span.start < d.span.stop ∧
    (d.HasLetAt t.span.start ∨ ErrorAt es t.span.start)

def LaidToken.Ends (c : Nat) (ds : List Decl) (t u : LaidToken) : Prop :=
  u.Leaves c ∧ u.span.start < t.span.start ∧ ∀ d ∈ ds, ¬d.span.contains u.span = true

namespace Divides

variable {c place : Nat} {es : List SyntaxError} {t u : LaidToken} {ts : List LaidToken}
  {ds : List Decl}

theorem starts_or_swallowed (h : Divides c es ts ds) (hts : Ascending place ts) (ht : t ∈ ts)
    (hresumes : Resumes c t) :
    (∃ d ∈ ds, d.span.start = t.span.start) ∨ (∃ d ∈ ds, d.Swallows es t) ∨
      ∃ u ∈ ts, LaidToken.Ends c ds t u := by
  induction h generalizing place with
  | stop ts hend =>
    cases ts with
    | nil => cases ht
    | cons v ts =>
      have hleaves := hend v rfl
      obtain ⟨-, hlt, hrest⟩ := ascending_cons.mp hts
      rcases List.mem_cons.mp ht with rfl | ht
      · have := hresumes.column
        have := hleaves.2
        omega
      · have := (hrest.of_mem ht).1
        exact .inr (.inr ⟨v, by simp, hleaves, by omega, by simp⟩)
  | stray v skipped ts ds hstray hskipped _ _ ih =>
    have ht : t ∈ ts := by
      simp only [List.mem_cons, List.mem_append] at ht
      rcases ht with rfl | ht | ht
      · exact absurd hresumes.halts hstray
      · exact absurd hresumes.halts (hskipped t ht)
      · exact ht
    rcases ih (Ascending.behind hts) ht with hd | hd | ⟨u, hu, hends⟩
    · exact .inl hd
    · exact .inr (.inl hd)
    · exact .inr (.inr ⟨u, by simp [hu], hends⟩)
  | decl v read skipped ts d ds _ _ hextent hread hskipped _ _ ih =>
    obtain ⟨hfirst, hnext, hlast⟩ := behind_first hts
    simp only [List.mem_cons, List.mem_append] at ht
    -- the token starts the declaration, was read into it, was left out behind it, or stands further behind
    rcases ht with rfl | ht | ht | ht
    · exact .inl ⟨d, by simp, hextent.start⟩
    · obtain ⟨hstart, hstop⟩ := hextent.strictly_inside hfirst ht
      have hlt := (hfirst.of_mem (List.mem_cons_of_mem _ ht)).2
      exact .inr (.inl ⟨d, by simp, hstart, by omega, hread t ht hresumes⟩)
    · exact absurd hresumes.halts (hskipped t ht)
    · rcases ih hlast ht with ⟨d', hd', h⟩ | ⟨d', hd', h⟩ | ⟨u, hu, hleaves, hbefore, hout⟩
      · exact .inl ⟨d', by simp [hd'], h⟩
      · exact .inr (.inl ⟨d', by simp [hd'], h⟩)
      · refine .inr (.inr ⟨u, by simp [hu], hleaves, hbefore, fun d' hd' hin => ?_⟩)
        rcases List.mem_cons.mp hd' with rfl | hd'
        · have := stop_le_start hts hextent (List.mem_append_right skipped hu)
          have := (hlast.of_mem hu).2
          simp only [Span.contains, Bool.and_eq_true, decide_eq_true_eq] at hin
          omega
        · exact hout d' hd' hin

theorem leaves_behind (h : Divides c es ts ds) (hts : Ascending place ts) (hu : u ∈ ts)
    (hleaves : u.Leaves c) :
    (∃ d ∈ ds, d.span.contains u.span = true) ∨ ∀ d ∈ ds, d.span.stop ≤ u.span.start := by
  induction h generalizing place with
  | stop => exact .inr (by simp)
  | stray t skipped ts ds hstray hskipped _ _ ih =>
    simp only [List.mem_cons, List.mem_append] at hu
    rcases hu with rfl | hu | hu
    · exact absurd hleaves.halts hstray
    · exact absurd hleaves.halts (hskipped u hu)
    · exact ih (Ascending.behind hts) hu
  | decl t read skipped ts d ds _ hcolumn hextent _ hskipped _ _ ih =>
    obtain ⟨hfirst, hnext, hlast⟩ := behind_first hts
    simp only [List.mem_cons, List.mem_append] at hu
    rcases hu with rfl | hu | hu | hu
    · exact absurd hcolumn (Nat.ne_of_lt hleaves.2)
    · exact .inl ⟨d, by simp, hextent.contains_of_read hfirst hu⟩
    · exact absurd hleaves.halts (hskipped u hu)
    · rcases ih hlast hu with ⟨d', hd', hin⟩ | hout
      · exact .inl ⟨d', by simp [hd'], hin⟩
      · refine .inr fun d' hd' => ?_
        rcases List.mem_cons.mp hd' with rfl | hd'
        · exact stop_le_start hts hextent (List.mem_append_right skipped hu)
        · exact hout d' hd'

theorem not_inside_of_pairwise (hpairwise : ds.Pairwise fun d d' => d.span.stop ≤ d'.span.start)
    {d d' : Decl} (hd : d ∈ ds) (hd' : d' ∈ ds) (hle : d.span.start ≤ d.span.stop)
    (hin : d'.span.start < d.span.start ∧ d.span.start < d'.span.stop) : False := by
  induction hpairwise with
  | nil => cases hd
  | cons hfirst _ ih =>
    rcases List.mem_cons.mp hd with rfl | hlater
    · rcases List.mem_cons.mp hd' with rfl | hlater'
      · omega
      · have := hfirst d' hlater'
        omega
    · rcases List.mem_cons.mp hd' with rfl | hlater'
      · have := hfirst d hlater
        omega
      · exact ih hlater hlater'

theorem starts_iff (h : Divides c es ts ds) (hts : Ascending place ts) (ht : t ∈ ts)
    (hresumes : Resumes c t) :
    (∃ d ∈ ds, d.span.start = t.span.start) ↔
      (∀ d ∈ ds, ¬d.Swallows es t) ∧ ∀ u ∈ ts, ¬LaidToken.Ends c ds t u := by
  constructor
  · rintro ⟨d, hd, hstart⟩
    have hle := h.start_le_stop hts hd
    refine ⟨fun d' hd' hswallows => ?_, fun u hu hends => ?_⟩
    · refine not_inside_of_pairwise (h.pairwise hts) hd hd' hle ?_
      rw [hstart]
      exact ⟨hswallows.1, hswallows.2.1⟩
    · obtain ⟨hleaves, hbefore, hout⟩ := hends
      rcases h.leaves_behind hts hu hleaves with ⟨d', hd', hin⟩ | hbehind
      · exact hout d' hd' hin
      · have := hbehind d hd
        omega
  · rintro ⟨hswallowed, hends⟩
    rcases h.starts_or_swallowed hts ht hresumes with hd | ⟨d, hd, hswallows⟩ | ⟨u, hu, hend⟩
    · exact hd
    · exact absurd hswallows (hswallowed d hd)
    · exact absurd hend (hends u hu)

end Divides
end ScriptAnalyzer

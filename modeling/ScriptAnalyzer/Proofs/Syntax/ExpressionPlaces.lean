import ScriptAnalyzer.Proofs.Syntax.ParameterPlaces

/-!
Every expression is read so that its parts stand in order, and so that a complete expression ends in
front of the next name. This needs enough depth: where the depth runs out, names can be left over.
-/

namespace ScriptAnalyzer

theorem Span.merge_valid {s : Span} (h : s.start ≤ s.stop) (t : Span) :
    (s.merge t).start ≤ (s.merge t).stop :=
  Nat.le_trans (Nat.min_le_left _ _) (Nat.le_trans h (Nat.le_max_left _ _))

/-- An expression that a parser reads between two places. -/
structure Laid (p : Place) (e : Expr) (p' : Place) : Prop where
  reads : ReadsOff e.landmarks p p'
  lies : Lies [e] p.cut p'.cut
  start : p.stop ≤ e.span.start
  valid : e.span.start ≤ e.span.stop
  reaches : p'.Reaches e.span.stop
  within : e.NamesWithin e.span

/-- Expressions that a parser reads one behind the other. -/
structure LaidAll (p : Place) (es : List Expr) (p' : Place) : Prop where
  reads : ReadsOff (Expr.landmarksOfAll es) p p'
  lies : Lies es p.cut p'.cut

/-- A binding that a parser reads between two places. -/
structure BindingLaid (p : Place) (b : Binding) (p' : Place) : Prop where
  reads : ReadsOff b.landmarks p p'
  lies : Lies [b.body] p.cut p'.cut
  start : p.stop ≤ b.span.start
  first : b.span.start ≤ p.next
  stop : b.span.stop = p'.stop
  value : p.stop ≤ b.body.span.start
  within : b.body.NamesWithin b.body.span
  reaches : p'.Reaches b.body.span.stop
  shorter : p'.rest.length < p.rest.length
  clear : p'.Clear

variable {p p' p₁ p₂ : Place} {e x y : Expr} {es fs : List Expr}

theorem ReadsOff.names {ms : List Landmark} {n : Ident} (h : ReadsOff ms p p')
    (hn : n ∈ ms.filterMap Landmark.named) : p.next ≤ n.span.start ∧ n.span.stop ≤ p'.stop := by
  obtain ⟨m, hm, hnamed⟩ := List.mem_filterMap.mp hn
  exact h.within hm (Landmark.source_of_named hnamed)

theorem ReadsOff.namesWithin {span : Span} (h : ReadsOff e.landmarks p p')
    (hstart : span.start ≤ p.next) (hstop : p'.stop ≤ span.stop) : e.NamesWithin span :=
  fun _ hn => ⟨Nat.le_trans hstart (h.names hn).1, Nat.le_trans (h.names hn).2 hstop⟩

namespace Laid

theorem before (h : Laid p₁ e p') (hread : ReadsOff [] p p₁) : Laid p e p' :=
  { h with
    reads := hread.before h.reads
    lies := h.lies.from_earlier hread.cut_le
    start := Nat.le_trans hread.stop_le h.start }

theorem andThen (h : Laid p e p₁) (hread : ReadsOff [] p₁ p') : Laid p e p' :=
  { h with
    reads := h.reads.andThen hread
    lies := h.lies.up_to hread.cut_le
    reaches := hread.reaches h.reaches }

theorem all (h : Laid p e p') : LaidAll p [e] p' :=
  ⟨by simpa [Expr.landmarksOfAll] using h.reads, h.lies⟩

theorem of_children (hplain : e.isPlain = true) (hreads : ReadsOff e.landmarks p p')
    (hlies : Lies e.children p.cut p'.cut) (hstart : p.stop ≤ e.span.start)
    (hvalid : e.span.start ≤ e.span.stop) (hreaches : p'.Reaches e.span.stop)
    (hwithin : e.NamesWithin e.span) : Laid p e p' where
  reads := hreads
  lies := .plain hplain (by simpa using hlies)
  start := hstart
  valid := hvalid
  reaches := hreaches
  within := hwithin

theorem missing {n : Nat} (hread : ReadsOff [] p p') (hstart : p.stop ≤ n) (hreaches : p'.Reaches n) :
    Laid p (.error (.empty n)) p' :=
  of_children rfl hread (.nil hread.cut_le) hstart (Nat.le_refl n) hreaches
    fun _ h => by simp [Expr.names, Expr.landmarks] at h

/-- A node whose span goes from the start of its first part to the end of its second one. -/
theorem join (hx : Laid p x p₁) (hgap : ReadsOff [] p₁ p₂) (hy : Laid p₂ y p')
    (hplain : e.isPlain = true) (hchildren : e.children = [x, y])
    (hmarks : e.landmarks = x.landmarks ++ y.landmarks) (hspan : e.span = x.span.merge y.span) :
    Laid p e p' := by
  have hgap' := hy.before hgap
  have hle := (hx.reads.trans hgap).stop_le
  have hxstart := hx.start
  have hystart := hy.start
  have hvalid := hx.valid
  refine of_children hplain ?_ ?_ ?_ ?_ ?_ ?_
  · rw [hmarks]
    exact hx.reads.trans hgap'.reads
  · rw [hchildren]
    exact hx.lies.append hgap'.lies
  · rw [hspan, Span.merge]
    exact Nat.le_min.mpr ⟨hxstart, Nat.le_trans hle hystart⟩
  · rw [hspan]
    exact Span.merge_valid hvalid _
  · rw [hspan]
    exact (hgap'.reads.reaches hx.reaches).max hy.reaches
  · refine .of_children hplain fun c hc => ?_
    rw [hchildren] at hc
    rw [hspan]
    simp only [List.mem_cons, List.not_mem_nil, or_false] at hc
    rcases hc with rfl | rfl
    · exact hx.within.merge_left _
    · exact hy.within.merge_right _

/-- A member access that ends with the span `last` of its name or dot. -/
theorem access {dot last : Span} {name : Option Ident} (h : Laid p x p₁)
    (hread : ReadsOff (.dot dot :: name.toList.map .member) p₁ p')
    (hstart : p₁.stop ≤ last.start) (hreaches : p'.Reaches last.stop)
    (hname : ∀ n ∈ name, n.span = last) : Laid p (.member (x.span.merge last) x dot name) p' where
  reads := h.reads.trans hread
  lies := by
    refine .member h.lies hread.cut_le (fun n hn => hread.names ?_) (.nil (Cut.le_refl _))
    rw [Option.mem_def.mp hn]
    exact List.mem_cons_self
  start := Nat.le_min.mpr ⟨h.start, Nat.le_trans h.reads.stop_le hstart⟩
  valid := Span.merge_valid h.valid _
  reaches := (hread.reaches h.reaches).max hreaches
  within := by
    intro n hn
    rw [Expr.names_member] at hn
    rcases List.mem_append.mp hn with hn | hn
    · exact h.within.merge_left last n hn
    · rw [hname n (Option.mem_toList.mp hn)]
      exact ⟨Nat.min_le_right _ _, Nat.le_max_right _ _⟩

end Laid

namespace LaidAll

theorem nil (h : ReadsOff [] p p') : LaidAll p [] p' := ⟨h, .nil h.cut_le⟩

theorem append (h : LaidAll p es p₁) (h' : LaidAll p₁ fs p') : LaidAll p (es ++ fs) p' where
  reads := by
    rw [Expr.landmarksOfAll_append]
    exact h.reads.trans h'.reads
  lies := h.lies.append h'.lies

theorem before (h : LaidAll p₁ es p') (hread : ReadsOff [] p p₁) : LaidAll p es p' :=
  (nil hread).append h

theorem andThen (h : LaidAll p es p₁) (hread : ReadsOff [] p₁ p') : LaidAll p es p' := by
  simpa using h.append (nil hread)

theorem cons (h : Laid p e p₁) (h' : LaidAll p₁ es p') : LaidAll p (e :: es) p' := h.all.append h'

/-- A call whose arguments stand inside its parentheses. -/
theorem call (parens : Span) (h : LaidAll p₂ es p') (hcallee : Laid p x p₁) (hgap : ReadsOff [] p₁ p₂)
    (hstart : p₁.stop ≤ parens.start) (hopen : parens.start ≤ p₂.next) (hclose : parens.stop = p'.stop) :
    Laid p (.call (x.span.merge parens) x es parens) p' := by
  have hall := h.before hgap
  refine .of_children rfl (hcallee.reads.trans hall.reads) (hcallee.lies.append hall.lies) ?_ ?_ ?_ ?_
  · exact Nat.le_min.mpr ⟨hcallee.start, Nat.le_trans hcallee.reads.stop_le hstart⟩
  · exact Span.merge_valid hcallee.valid _
  · exact (hall.reads.reaches hcallee.reaches).max (hclose ▸ Place.reaches_stop _)
  · refine .of_children rfl fun c hc n hn => ?_
    rcases List.mem_cons.mp hc with rfl | hc
    · exact hcallee.within.merge_left _ n hn
    · obtain ⟨hnext, hstop⟩ := h.reads.names (n := n) (by
        rw [Expr.filterMap_landmarksOfAll]
        exact List.mem_flatMap.mpr ⟨c, hc, hn⟩)
      refine ⟨Nat.le_trans (Nat.min_le_right _ _) (Nat.le_trans hopen hnext), ?_⟩
      exact Nat.le_trans hstop (hclose ▸ Nat.le_max_right _ _)

end LaidAll

namespace BindingLaid

variable {b : Binding}

theorem bodyWithin (h : BindingLaid p b p') : b.body.NamesWithin b.span := by
  intro n hn
  obtain ⟨hnext, hle⟩ := h.reads.names (n := n) (by
    rw [Binding.landmarks, List.filterMap_append]
    exact List.mem_append_right _ hn)
  exact ⟨Nat.le_trans h.first hnext, h.stop ▸ hle⟩

theorem pos (h : BindingLaid p b p') : 0 < p'.stop := (h.reads.next_le_stop h.shorter).2

theorem valid (h : BindingLaid p b p') : b.span.start ≤ b.span.stop :=
  h.stop ▸ Nat.le_trans h.first (h.reads.next_le_stop h.shorter).1

theorem headLies (h : BindingLaid p b p') {stop : Nat} (hstop : p'.stop ≤ stop) :
    b.toLetHead.Lies b.body stop p.cut p'.cut where
  params := h.value
  paramsWithin := h.within
  paramsEnd := h.reaches.lt_next h.clear h.pos
  front := h.start
  within := h.bodyWithin
  valid := h.valid
  behind := Nat.le_of_eq h.stop.symm
  ends := Nat.le_trans (Nat.le_of_eq h.stop) hstop

/-- A binding with the expression that it scopes over. -/
theorem scope {scope : Expr} (h : BindingLaid p b p₁) (hscope : Laid p₁ scope p') (hclear : p'.Clear) :
    Laid p (.letIn (b.span.merge scope.span) b.toLetHead b.body scope) p' := by
  have hpos := Nat.lt_of_lt_of_le h.pos hscope.reads.stop_le
  have hstop := h.stop
  have hstart := h.start
  have hvalid := h.valid
  have hscopeStart := hscope.start
  have hle := h.reads.stop_le
  constructor
  case reads =>
    simpa [Expr.landmarks, Binding.landmarks] using h.reads.trans hscope.reads
  case lies =>
    refine .letIn (h.headLies (Nat.le_trans hscope.start hscope.valid)) ?_ ?_ h.lies hscope.lies
      (.nil (Cut.le_refl _))
    · intro n hn
      obtain ⟨hnext, -⟩ := hscope.reads.names hn
      have hbehind := Place.stop_le_next hscope.reads.parted
      exact ⟨by rw [hstop]; exact Nat.le_trans hbehind hnext, (hscope.within n hn).2⟩
    · exact hscope.reaches.lt_next hclear hpos
  case start =>
    exact Nat.le_min.mpr ⟨hstart, Nat.le_trans hle hscopeStart⟩
  case valid => exact Span.merge_valid hvalid _
  case reaches =>
    refine Place.Reaches.max (hscope.reads.reaches ?_) hscope.reaches
    exact hstop ▸ Place.reaches_stop p₁
  case within =>
    intro n hn
    rw [Expr.names_letIn] at hn
    rcases List.mem_append.mp hn with hn | hn
    · exact h.bodyWithin.merge_left scope.span n hn
    · exact hscope.within.merge_right b.span n hn

/-- A binding without the expression that it should scope over. -/
theorem alone (h : BindingLaid p b p') :
    Laid p (.letIn b.span b.toLetHead b.body (.error (.empty b.span.stop))) p' := by
  have hmissing : Laid p' (.error (.empty b.span.stop)) p' :=
    .missing (ReadsOff.refl h.reads.behind) (Nat.le_of_eq h.stop.symm) (h.stop ▸ Place.reaches_stop p')
  have hspan : b.span.merge (.empty b.span.stop) = b.span := by
    have := h.valid
    simp only [Span.merge, Span.empty, Nat.max_self, Nat.min_eq_left this]
  have hscope := h.scope hmissing h.clear
  rwa [Expr.span, hspan] at hscope

end BindingLaid

namespace Parser

open ParserState

variable {α : Type} {s : ParserState} {n : Nat}

theorem missingExpr_laid (h : Parted s.prevEnd s.rest) :
    missingExpr.Yields s fun e s' => Laid s.place e s'.place ∧ (s.place.Clear → s'.place.Clear) := by
  simp only [missingExpr, yields_bind, yields_get, yields_error, yields_pure, place_report]
  exact ⟨.missing (ReadsOff.refl h) (Nat.le_refl _) (Place.reaches_stop _), id⟩

theorem errorHere_laid (h : Parted s.prevEnd s.rest) :
    errorHere.Yields s fun e s' => Laid s.place e s'.place ∧ (s.place.Clear → s'.place.Clear) :=
  ⟨.missing (ReadsOff.refl h) (Nat.le_refl _) (Place.reaches_stop _), id⟩

theorem behind_laid {token : Token} (what : String) {q : Parser Expr} (h : Parted s.prevEnd s.rest)
    (htoken : token ≠ .eof)
    (hq : ∀ s', ReadsOff [] s.place s'.place → s'.rest.length < s.rest.length →
      q.Yields s' fun e s'' => Laid s'.place e s''.place ∧ s''.place.Clear) :
    (behind token what q).Yields s fun e s' =>
      Laid s.place e s'.place ∧ (s.place.Clear → s'.place.Clear) := by
  rw [behind, yields_bind, yields_expect]
  split
  case isTrue hpeek =>
    have h₁ := readsOff_advance h
    refine (hq _ h₁ (length_advance (atEnd_of_peek hpeek htoken))).mono fun e s' h' => ?_
    exact ⟨h'.1.before h₁, fun _ => h'.2⟩
  case isFalse =>
    refine (missing_place what s).mono fun _ s₁ h₁ => ?_
    have h₁' : Parted s₁.place.stop s₁.place.rest := h₁.symm ▸ h
    exact h₁ ▸ errorHere_laid h₁'

theorem literal?_place (t : LaidToken) (s : ParserState) :
    (literal? t).Yields s fun _ s' => s'.place = s.place := by
  unfold literal?
  split
  case h_1 =>
    dsimp only
    split
    · exact rfl
    · exact place_report s _
  all_goals exact rfl

theorem literal?_isSome {t : LaidToken} (s : ParserState) (h : t.token.startsAtom = true)
    (hident : t.token.isIdent = false) (hpunct : ∀ p, t.token ≠ .punct p) :
    (literal? t).Yields s fun value _ => value.isSome = true := by
  unfold literal?
  split
  case h_1 =>
    dsimp only
    split <;> exact rfl
  case h_8 hint hfloat hstring hunclosed hchar htrue hfalse =>
    cases htoken : t.token with
    | keyword k =>
      cases k with
      | trueKw => exact (htrue htoken).elim
      | falseKw => exact (hfalse htoken).elim
      | _ => rw [htoken] at h; cases h
    | int text => exact (hint _ htoken).elim
    | float text => exact (hfloat _ htoken).elim
    | string raw => exact (hstring _ htoken).elim
    | unclosedString raw => exact (hunclosed _ htoken).elim
    | char raw => exact (hchar _ htoken).elim
    | ident text => rw [htoken] at hident; cases hident
    | punct p => exact absurd htoken (hpunct p)
    | _ => rw [htoken] at h; cases h
  all_goals exact rfl

theorem literalAtom_laid (h : Parted s.prevEnd s.rest) (hend : s.atEnd = false)
    (hident : s.peek.isIdent = false) :
    (do
      match ← literal? s.current with
      | some value =>
        skip
        return .literal s.current.span value
      | none =>
        error .expectedExpression s.current.span
        return .error (.empty s.current.span.start) : Parser Expr).Yields s fun e s' =>
      Laid s.place e s'.place ∧ (s.peek.startsAtom = true → (∀ p, s.peek ≠ .punct p) →
        s'.rest.length < s.rest.length) := by
  have hstart := prevEnd_le_start h hend
  rw [yields_bind]
  have hvalue : (literal? s.current).Yields s fun value _ => s.peek.startsAtom = true →
      (∀ p, s.peek ≠ .punct p) → value.isSome = true :=
    fun hstarts => literal?_isSome s hstarts hident
  refine ((literal?_place s.current s).and hvalue).mono fun value s₁ h₁ => ?_
  obtain ⟨h₁, hsome⟩ := h₁
  have hread₁ : ReadsOff [] s.place s₁.place := h₁.symm ▸ ReadsOff.refl h
  have hrest : s₁.rest = s.rest := congrArg Place.rest h₁
  cases value with
  | some value =>
    simp only [yields_bind, yields_skip, yields_pure]
    have hread := hread₁.before (readsOff_advance hread₁.behind)
    have hend₁ : s₁.atEnd = false := by rw [atEnd, hrest]; exact hend
    have hlt : s₁.advance.rest.length < s.rest.length := hrest ▸ length_advance hend₁
    have hstop : s.current.span.stop = s₁.advance.prevEnd := by
      rw [prevEnd_advance hend₁]
      obtain ⟨ts, hts⟩ := rest_eq_cons hend
      rw [current, current, hrest, hts]
      rfl
    refine ⟨.of_children rfl hread (.nil hread.cut_le) hstart ?_ (hstop ▸ Place.reaches_stop _) ?_,
      fun _ _ => hlt⟩
    · exact Nat.le_trans (start_le_next hend) (hstop ▸ (hread.next_le_stop hlt).1)
    · exact fun n hn => by simp [Expr.names, Expr.landmarks] at hn
  | none =>
    simp only [yields_bind, yields_error, yields_pure, place_report]
    refine ⟨.missing hread₁ hstart (hread₁.reaches (.inr ?_)), fun hstarts hpunct => ?_⟩
    · obtain ⟨ts, hts⟩ := rest_eq_cons hend
      have htoken : s.current.token.isIdent = false := hident
      generalize s.current = t at hts htoken
      simp only [Place.next, hts, htoken]
      exact Nat.lt_succ_self _
    · cases hsome hstarts hpunct

theorem atStatement_yields (column : Nat) (s : ParserState) :
    (atStatement column).Yields s fun b s' => s' = s ∧ (b = true → s.atEnd = false) := by
  rw [atStatement, yields_bind, yields_get, yields_pure]
  refine ⟨rfl, fun h => ?_⟩
  simp only [Bool.and_eq_true, Bool.not_eq_true'] at h
  exact h.1.1.1

/-- Elements of a sequence that hold an expression each. -/
structure ItemsLaid (marks : α → List Landmark) (part : α → Expr) (p : Place) (items : List α)
    (p' : Place) : Prop where
  reads : ReadsOff (items.flatMap marks) p p'
  lies : Lies (items.map part) p.cut p'.cut

namespace ItemsLaid

variable {marks : α → List Landmark} {part : α → Expr} {items items' : List α}

theorem nil (h : ReadsOff [] p p') : ItemsLaid marks part p [] p' := ⟨h, .nil h.cut_le⟩

theorem append (h : ItemsLaid marks part p items p₁) (h' : ItemsLaid marks part p₁ items' p') :
    ItemsLaid marks part p (items ++ items') p' where
  reads := by
    rw [List.flatMap_append]
    exact h.reads.trans h'.reads
  lies := by
    rw [List.map_append]
    exact h.lies.append h'.lies

end ItemsLaid

theorem reject_readsOff (h : Parted s.prevEnd s.rest) :
    reject.Yields s fun _ s' => ReadsOff [] s.place s'.place ∧
      (s.atEnd = false → s'.rest.length < s.rest.length) := by
  rw [reject, yields_bind]
  refine (unexpected_place s).mono fun _ s₁ h₁ => ?_
  have hread : ReadsOff [] s.place s₁.place := h₁.symm ▸ ReadsOff.refl h
  have hrest : s₁.rest = s.rest := congrArg Place.rest h₁
  refine ⟨hread.before (readsOff_advance hread.behind), fun hend => hrest ▸ length_advance ?_⟩
  rw [atEnd, hrest]
  exact hend

theorem sequenceItems_laid {close : Punct} {unclosed : SyntaxError} {item : Parser (Option α)}
    {marks : α → List Landmark} {part : α → Expr} {most : Nat}
    (hitem : ∀ s, Parted s.prevEnd s.rest → s.rest.length < most → item.Yields s fun found s' =>
      ItemsLaid marks part s.place found.toList s'.place)
    (n : Nat) (s : ParserState) (h : Parted s.prevEnd s.rest) (hmost : s.rest.length < most) :
    (sequenceItems close unclosed item n).Yields s fun r s' =>
      ItemsLaid marks part s.place r.1 s'.place ∧ r.2 = s'.prevEnd := by
  induction n generalizing s with
  | zero => exact ⟨.nil (ReadsOff.refl h), rfl⟩
  | succ n ih =>
    rw [sequenceItems, yields_bind, yields_eat]
    split
    case isTrue hclose =>
      exact ⟨.nil (readsOff_advance h), (prevEnd_advance (atEnd_of_peek hclose (by simp))).symm⟩
    case isFalse =>
      rw [yields_bind, yields_get]
      split
      case isTrue => exact ⟨.nil (readsOff_report h _), (prevEnd_report s _).symm⟩
      case isFalse =>
        rw [yields_bind, yields_eat]
        split
        case isTrue =>
          have h₁ := readsOff_advance h
          refine (ih _ h₁.behind (Nat.lt_of_le_of_lt (rest_le h₁) hmost)).mono fun r s₂ h₂ => ?_
          exact ⟨(ItemsLaid.nil h₁).append h₂.1, h₂.2⟩
        case isFalse =>
          simp only [yields_bind, yields_setAnchor, yields_ifStuck]
          refine Yields.mono (hitem _ h hmost) fun found s₁ h₁ => ?_
          have hmore (s₂ : ParserState) (h₂ : ReadsOff [] s₁.place s₂.place) :
              (sequenceItems close unclosed item n).Yields s₂ fun r s' =>
                ItemsLaid marks part s.place (found.toList ++ r.1) s'.place ∧ r.2 = s'.prevEnd := by
            have hle := rest_le (h₁.reads.trans h₂)
            refine (ih s₂ h₂.behind (Nat.lt_of_le_of_lt hle hmost)).mono fun r s₃ h₃ => ?_
            exact ⟨h₁.append ((ItemsLaid.nil h₂).append h₃.1), h₃.2⟩
          split
          case isTrue => exact (reject_readsOff h₁.reads.behind).mono fun _ s₂ h₂ => hmore s₂ h₂.1
          case isFalse => exact hmore s₁ (ReadsOff.refl h₁.reads.behind)

theorem bracketed_laid {close : Punct} {delimiter : Char} {item : Parser (Option α)}
    {marks : α → List Landmark} {part : α → Expr} (h : Parted s.prevEnd s.rest) (hend : s.atEnd = false)
    (hitem : ∀ s', Parted s'.prevEnd s'.rest → s'.rest.length < s.rest.length →
      item.Yields s' fun found s'' => ItemsLaid marks part s'.place found.toList s''.place)
    (n : Nat) :
    (bracketed close delimiter item n).Yields s fun r s' =>
      ItemsLaid marks part s.advance.place r.1 s'.place ∧ r.2 = s'.prevEnd := by
  rw [bracketed, yields_bind, yields_bump, yields_bind, yields_get]
  refine nested_yields (fun _ _ _ => id) (withOffside_yields (fun _ _ _ => id) ?_)
  exact sequenceItems_laid hitem n _ (readsOff_advance h).behind (length_advance hend)

theorem bindingPattern_readsOff {q : Parser Pattern} (h : Parted s.prevEnd s.rest)
    (hq : q.Yields s fun p s' => ReadsOff p.landmarks s.place s'.place) :
    (bindingPattern q).Yields s fun p s' => ReadsOff p.landmarks s.place s'.place := by
  rw [bindingPattern, yields_bind, yields_get]
  split
  · exact hq
  · exact hq
  · rw [yields_bind]
    refine (missing_place _ s).mono fun _ s₁ h₁ => ?_
    exact show ReadsOff [] s.place s₁.place from h₁.symm ▸ ReadsOff.refl h

theorem blockRest_laid {column : Nat} {b : Binding} {q : Parser Expr} (h : Parted s.prevEnd s.rest)
    (hclear : s.place.Clear)
    (hq : s.atEnd = false → q.Yields s fun e s' => Laid s.place e s'.place ∧ s'.place.Clear) :
    (blockRest column b q).Yields s fun e s' => Laid s.place e s'.place ∧ s'.place.Clear := by
  rw [blockRest, yields_bind]
  refine (atStatement_yields column s).mono fun found s' hfound => ?_
  obtain ⟨rfl, hend⟩ := hfound
  cases found with
  | true => exact hq (hend rfl)
  | false =>
    rw [if_neg Bool.false_ne_true, yields_bind, yields_report]
    refine (errorHere_laid (readsOff_report h _).behind).mono fun e s₁ h₁ => ?_
    rw [place_report] at h₁
    exact ⟨h₁.1, h₁.2 hclear⟩

theorem thenPart_laid {q : Parser Expr} (h : Parted s.prevEnd s.rest) (hclear : s.place.Clear)
    (hq : ∀ s', ReadsOff [] s.place s'.place → s'.rest.length < s.rest.length →
      q.Yields s' fun e s'' => Laid s'.place e s''.place ∧ s''.place.Clear) :
    (thenPart q).Yields s fun e s' => Laid s.place e s'.place ∧ s'.place.Clear := by
  rw [thenPart, yields_bind, yields_get]
  split
  case isTrue =>
    rw [yields_bind]
    refine (missing_place _ s).mono fun _ s₁ h₁ => ?_
    have h₁' : Parted s₁.place.stop s₁.place.rest := h₁.symm ▸ h
    refine (errorHere_laid h₁').mono fun e s₂ h₂ => ?_
    rw [h₁] at h₂
    exact ⟨h₂.1, h₂.2 hclear⟩
  case isFalse =>
    exact Yields.mono (behind_laid _ h (by simp) hq) fun e s' h' => ⟨h'.1, h'.2 hclear⟩

theorem elsePart_laid {q : Parser Expr} (h : Parted s.prevEnd s.rest) (hclear : s.place.Clear)
    (hq : ∀ s', ReadsOff [] s.place s'.place → s'.rest.length < s.rest.length →
      q.Yields s' fun e s'' => Laid s'.place e s''.place ∧ s''.place.Clear) :
    (elsePart q).Yields s fun e? s' => LaidAll s.place e?.toList s'.place ∧ s'.place.Clear := by
  rw [elsePart, yields_bind, yields_get]
  split
  case isTrue helse =>
    simp only [yields_bind, yields_skip, yields_pure]
    have h₁ := readsOff_advance h
    have hlt := length_advance (atEnd_of_peek (of_decide_eq_true (test_left helse)) (by simp))
    exact (hq _ h₁ hlt).mono fun e s' h' => ⟨(h'.1.before h₁).all, h'.2⟩
  case isFalse => exact ⟨.nil (ReadsOff.refl h), hclear⟩

theorem memberName?_readsOff (h : Parted s.prevEnd s.rest) :
    memberName?.Yields s fun name s' => ReadsOff (name.toList.map .member) s.place s'.place := by
  rw [memberName?, yields_bind, yields_get]
  split
  · exact ReadsOff.refl h
  · exact (ident?_landmark h .member fun _ => rfl).mono fun _ _ h' => h'.1

theorem parentheses_yields (opener : Span) (close : Option Span) (s : ParserState) :
    (parentheses opener close).Yields s fun parens s' => s'.place = s.place ∧
      parens = (close.map opener.merge).getD ⟨opener.start, s.prevEnd⟩ := by
  cases close with
  | some close => exact ⟨rfl, rfl⟩
  | none =>
    rw [parentheses, yields_bind, yields_report]
    refine ⟨place_report s _, ?_⟩
    change Span.mk _ _ = _
    rw [prevEnd_report]
    rfl

/-- The expressions of a tuple behind its first one. The last of them ends the tuple. -/
structure SeriesLaid (p : Place) (es : List Expr) (p' : Place) : Prop extends LaidAll p es p' where
  start : ∀ last ∈ es.getLast?, p.stop ≤ last.span.start
  valid : ∀ last ∈ es.getLast?, last.span.start ≤ last.span.stop
  reaches : ∀ last ∈ es.getLast?, p'.Reaches last.span.stop
  within : ∀ last ∈ es.getLast?, ∀ e ∈ es, e.NamesWithin ⟨p.next, last.span.stop⟩

structure ExprsLaid (n : Nat) : Prop where
  binding : ∀ {s}, Parted s.prevEnd s.rest → s.peek = .keyword .letKw →
    32 * s.rest.length + 1 ≤ n → (binding n).Yields s fun b s' => BindingLaid s.place b s'.place
  letScope : ∀ {b p s}, BindingLaid p b s.place → s.peek = .keyword .inKw →
    32 * s.rest.length + 1 ≤ n →
    (letScope n b).Yields s fun e s' => Laid p e s'.place ∧ s'.place.Clear
  body : ∀ {s}, Parted s.prevEnd s.rest → 32 * s.rest.length + 11 ≤ n →
    (body n).Yields s fun e s' => Laid s.place e s'.place ∧ s'.place.Clear
  statements : ∀ {s} column, Parted s.prevEnd s.rest → 32 * s.rest.length + 10 ≤ n →
    (statements n column).Yields s fun e s' => Laid s.place e s'.place ∧ s'.place.Clear
  expr : ∀ {s}, Parted s.prevEnd s.rest → 32 * s.rest.length + 9 ≤ n →
    (expr n).Yields s fun e s' => Laid s.place e s'.place ∧ s'.place.Clear
  tupleItems : ∀ {s}, Parted s.prevEnd s.rest → s.place.Clear → 32 * s.rest.length + 1 ≤ n →
    (tupleItems n).Yields s fun es s' => SeriesLaid s.place es s'.place ∧ s'.place.Clear
  simpleExpr : ∀ {s}, Parted s.prevEnd s.rest →
    32 * s.rest.length + (if startsOpenExpr s.peek then 2 else 8) ≤ n →
    (simpleExpr n).Yields s fun e s' => Laid s.place e s'.place ∧ s'.place.Clear
  conditional : ∀ {s}, Parted s.prevEnd s.rest → s.peek = .keyword .ifKw →
    32 * s.rest.length + 1 ≤ n →
    (conditional n).Yields s fun e s' => Laid s.place e s'.place ∧ s'.place.Clear
  lambda : ∀ {s}, Parted s.prevEnd s.rest → s.peek = .keyword .funKw → 32 * s.rest.length + 1 ≤ n →
    (lambda n).Yields s fun e s' => Laid s.place e s'.place ∧ s'.place.Clear
  operand : ∀ {s} power, Parted s.prevEnd s.rest → 32 * s.rest.length + 7 ≤ n →
    (operand n power).Yields s fun e s' => Laid s.place e s'.place ∧ s'.place.Clear
  operations : ∀ {p lhs s} power, Laid p lhs s.place → s.place.Clear → 32 * s.rest.length + 1 ≤ n →
    (operations n power lhs).Yields s fun e s' => Laid p e s'.place ∧ s'.place.Clear
  unary : ∀ {s}, Parted s.prevEnd s.rest → 32 * s.rest.length + 6 ≤ n →
    (unary n).Yields s fun e s' => Laid s.place e s'.place ∧ s'.place.Clear
  arguments : ∀ {p function s}, Laid p function s.place → 32 * s.rest.length + 5 ≤ n →
    (arguments n function).Yields s fun e s' => Laid p e s'.place ∧ s'.place.Clear
  accessed : ∀ {s}, Parted s.prevEnd s.rest → 32 * s.rest.length + 4 ≤ n →
    (accessed n).Yields s fun e s' => Laid s.place e s'.place ∧
      (s.peek.startsAtom = true → s.isOffside = false → s'.rest.length < s.rest.length)
  accesses : ∀ {p target s}, Laid p target s.place → 32 * s.rest.length + 1 ≤ n →
    (accesses n target).Yields s fun e s' => Laid p e s'.place ∧ s'.rest.length ≤ s.rest.length
  callArguments : ∀ {s}, Parted s.prevEnd s.rest → 32 * s.rest.length + 9 ≤ n →
    (callArguments n).Yields s fun r s' => LaidAll s.place r.1 s'.place ∧
      ∀ close ∈ r.2, s.prevEnd ≤ close.start ∧ close.stop = s'.prevEnd
  atom : ∀ {s}, Parted s.prevEnd s.rest → 32 * s.rest.length + 3 ≤ n →
    (atom n).Yields s fun e s' => Laid s.place e s'.place ∧
      (s.peek.startsAtom = true → s.isOffside = false → s'.rest.length < s.rest.length)
  parenthesised : ∀ {s}, Parted s.prevEnd s.rest → s.peek = .punct .lparen →
    32 * s.rest.length + 1 ≤ n → (parenthesised n).Yields s fun e s' =>
      Laid s.place e s'.place ∧ s'.rest.length < s.rest.length
  annotated : ∀ {s}, Parted s.prevEnd s.rest → 32 * s.rest.length + 10 ≤ n →
    (annotated n).Yields s fun e s' => LaidAll s.place [e] s'.place
  recordField : ∀ {s}, Parted s.prevEnd s.rest → 32 * s.rest.length + 9 ≤ n →
    (recordField n).Yields s fun field s' =>
      ItemsLaid (fun f => .label f.1 :: f.2.landmarks) (·.2) s.place field.toList s'.place

theorem returnType_readsOff (h : Parted s.prevEnd s.rest) (hclear : s.place.Clear)
    (hn : 32 * s.rest.length ≤ n) :
    (behind? (.punct .colon) (type n)).Yields s fun t s' =>
      ReadsOff ((t.map TypeExpr.landmarks).getD []) s.place s'.place ∧ s'.place.Clear := by
  rw [behind?, yields_bind, yields_eat]
  split
  case isTrue hcolon =>
    have h₁ := readsOff_advance h
    have hlt := length_advance (atEnd_of_peek hcolon (by simp))
    simp only [yields_bind, yields_pure]
    refine ((typesRead n).type h₁.behind (by omega)).mono fun t s' h' => ?_
    exact ⟨h₁.before h'.1, h'.2⟩
  case isFalse => exact ⟨ReadsOff.refl h, hclear⟩

/-- A name by itself. -/
theorem nameAtom_laid {text : String} (h : Parted s.prevEnd s.rest) (hend : s.atEnd = false)
    (hname : s.peek = .ident text) :
    Laid s.place (.ident ⟨text, s.current.span⟩) s.advance.place := by
  have hread : ReadsOff [.use ⟨text, s.current.span⟩] s.place s.advance.place :=
    readsOff_landmark h hend (Prod.ext hname.symm rfl)
  obtain ⟨hnext, hwithin⟩ := hread.within (n := ⟨text, s.current.span⟩) List.mem_cons_self rfl
  refine ⟨hread, .ident hread.cut_le hnext hwithin (.nil (Cut.le_refl _)), prevEnd_le_start h hend, ?_,
    .inl hwithin, fun n hn => ?_⟩
  · have hstop := ((readsOff_advance h).next_le_stop (length_advance hend)).1
    exact Nat.le_trans (start_le_next hend) (prevEnd_advance hend ▸ hstop)
  · rw [Expr.names_ident] at hn
    rw [List.mem_singleton.mp hn]
    exact ⟨Nat.le_refl _, Nat.le_refl _⟩

/-- A call whose opening parenthesis is the current token. -/
theorem call_laid {target : Expr} {args : List Expr} {close : Option Span} {s' : ParserState}
    (h : Laid p target s.place) (hend : s.atEnd = false) (hargs : LaidAll s.advance.place args s'.place)
    (hclose : ∀ span ∈ close, s.advance.prevEnd ≤ span.start ∧ span.stop = s'.prevEnd) :
    let parens := (close.map s.current.span.merge).getD ⟨s.current.span.start, s'.prevEnd⟩
    Laid p (.call (target.span.merge parens) target args parens) s'.place := by
  intro parens
  have h₁ := readsOff_advance h.reads.behind
  have hstart := prevEnd_le_start h.reads.behind hend
  have hopener := Nat.le_trans (start_le_next hend) (h₁.next_le_stop (length_advance hend)).1
  have hbounds : parens.start = s.current.span.start ∧ parens.stop = s'.prevEnd := by
    cases close with
    | none => exact ⟨rfl, rfl⟩
    | some span =>
      obtain ⟨hbehind, hstop⟩ := hclose span rfl
      refine ⟨Nat.min_eq_left (Nat.le_trans hopener hbehind), ?_⟩
      change max s.current.span.stop span.stop = _
      rw [hstop, ← prevEnd_advance hend]
      exact Nat.max_eq_right hargs.reads.stop_le
  exact hargs.call parens h h₁ (hbounds.1 ▸ hstart)
    (hbounds.1 ▸ Nat.le_trans hopener (Place.stop_le_next h₁.behind)) hbounds.2

/-- The items between brackets, of which the current token is the opening one. -/
theorem delimited_laid {marks : α → List Landmark} {part : α → Expr} {items : List α} {e : Expr}
    {s' : ParserState} (h : Parted s.prevEnd s.rest) (hend : s.atEnd = false)
    (hitems : ItemsLaid marks part s.advance.place items s'.place) (hplain : e.isPlain = true)
    (hspan : e.span = ⟨s.current.span.start, s'.prevEnd⟩) (hmarks : e.landmarks = items.flatMap marks)
    (hchildren : e.children = items.map part) :
    Laid s.place e s'.place ∧ s'.rest.length < s.rest.length := by
  have hlt := length_advance hend
  have h₁ := readsOff_advance h
  have hread : ReadsOff e.landmarks s.place s'.place := by
    rw [hmarks]
    exact h₁.before hitems.reads
  have hlies : Lies e.children s.place.cut s'.place.cut := by
    rw [hchildren]
    exact hitems.lies.from_earlier h₁.cut_le
  have hopener := Nat.le_trans (start_le_next hend) (h₁.next_le_stop hlt).1
  refine ⟨.of_children hplain hread hlies ?_ ?_ ?_ ?_, Nat.lt_of_le_of_lt (rest_le hitems.reads) hlt⟩
  · rw [hspan]
    exact prevEnd_le_start h hend
  · rw [hspan]
    exact Nat.le_trans hopener hitems.reads.stop_le
  · rw [hspan]
    exact Place.reaches_stop _
  · rw [hspan]
    exact hread.namesWithin (start_le_next hend) (Nat.le_refl _)

section

variable (ih : ExprsLaid n)
include ih

theorem binding_laid (h : Parted s.prevEnd s.rest) (hlet : s.peek = .keyword .letKw)
    (hn : 32 * s.rest.length + 1 ≤ n + 1) :
    (binding (n + 1)).Yields s fun b s' => BindingLaid s.place b s'.place := by
  have hend := atEnd_of_peek hlet (by simp)
  have hlt := length_advance hend
  have h₁ := readsOff_advance h
  simp only [binding, yields_bind, yields_bump, yields_get, yields_pure]
  refine (eat_readsOff _ h₁.behind).mono fun recToken s₂ h₂ => ?_
  have hle₂ := rest_le h₂
  have hpattern := bindingPattern_readsOff h₂.behind
    (((patternsRead n).atomicPattern h₂.behind (by omega)).mono fun _ _ h => h.1)
  refine hpattern.mono fun pattern s₃ h₃ => ?_
  have hle₃ := rest_le h₃
  refine (params_readsOff h₃.behind (by omega)).mono fun parameters s₄ h₄ => ?_
  refine (when_place _ (report_place _ s₄)).mono fun _ s₅ h₅ => ?_
  rw [← h₅] at h₄
  have hle₅ := rest_le h₄.1
  refine (returnType_readsOff h₄.1.behind h₄.2 (by omega)).mono fun returnType s₆ h₆ => ?_
  have hle₆ := rest_le h₆.1
  refine Yields.mono (behind_laid _ h₆.1.behind (by simp) fun s' h' hlt' =>
    ih.body h'.behind (by omega)) fun value s₇ h₇ => ?_
  have hread := (h₁.before h₂).before ((h₃.trans h₄.1).trans h₆.1)
  have hle₇ := rest_le h₇.1.reads
  exact {
    reads := by simpa only [Binding.landmarks, LetHead.landmarks] using hread.trans h₇.1.reads
    lies := h₇.1.lies.from_earlier hread.cut_le
    start := prevEnd_le_start h hend
    first := start_le_next hend
    stop := rfl
    value := Nat.le_trans hread.stop_le h₇.1.start
    within := h₇.1.within
    reaches := h₇.1.reaches
    shorter := show s₇.rest.length < s.rest.length by omega
    clear := h₇.2 h₆.2 }

theorem letScope_laid {b : Binding} (h : BindingLaid p b s.place) (hin : s.peek = .keyword .inKw)
    (hn : 32 * s.rest.length + 1 ≤ n + 1) :
    (letScope (n + 1) b).Yields s fun e s' => Laid p e s'.place ∧ s'.place.Clear := by
  simp only [letScope, yields_bind, yields_skip, yields_pure]
  have h₁ := readsOff_advance h.reads.behind
  have hlt := length_advance (atEnd_of_peek hin (by simp))
  refine (ih.body h₁.behind (by omega)).mono fun scope s₂ h₂ => ?_
  exact ⟨h.scope (h₂.1.before h₁) h₂.2, h₂.2⟩

theorem body_laid (h : Parted s.prevEnd s.rest) (hn : 32 * s.rest.length + 11 ≤ n + 1) :
    (body (n + 1)).Yields s fun e s' => Laid s.place e s'.place ∧ s'.place.Clear := by
  rw [body, yields_bind, yields_get]
  split
  case isTrue hstop =>
    refine (missingExpr_laid h).mono fun e s' h' => ⟨h'.1, h'.2 ?_⟩
    rcases Bool.or_eq_true_iff.mp hstop with hend | hline
    · exact clear_of_atEnd hend
    · exact clear_of_lineStart h (test_left hline)
  case isFalse =>
    split
    case isTrue =>
      exact withOffside_yields (fun _ _ _ => id) (ih.statements _ h (by
        change 32 * s.rest.length + 10 ≤ n
        omega))
    case isFalse => exact ih.expr h (by omega)

/-- The statements behind the first one. A token that starts no expression is left out, so the rest is
shorter in any case. -/
theorem furtherStatements_laid {first : Expr} {s₁ s₂ : ParserState} (column : Nat)
    (h : Laid s.place first s₁.place) (hskip : ReadsOff [] s₁.place s₂.place)
    (hshort : s₂.rest.length < s.rest.length ∨ s₂.rest = []) (hn : 32 * s.rest.length + 10 ≤ n + 1) :
    skipStray.Yields s₂ fun _ s₃ => (atStatement column).Yields s₃ fun more s₄ =>
      Yields (if more = true then do
          let second ← statements n column
          return .sequential (first.span.merge second.span) first second
        else return first) s₄ fun e s' => Laid s.place e s'.place ∧ s'.place.Clear := by
  refine (skipStray_readsOff hskip.behind).mono fun _ s₃ h₃ => ?_
  have hread := hskip.before h₃.1
  refine (atStatement_yields column s₃).mono fun more s₄ h₄ => ?_
  obtain ⟨rfl, hend⟩ := h₄
  cases more with
  | false => exact ⟨h.andThen hread, h₃.2⟩
  | true =>
    have hle := rest_le h₃.1
    have hpos : s₄.rest ≠ [] := by
      intro hnil
      have hatEnd := hend rfl
      rw [atEnd, hnil] at hatEnd
      cases hatEnd
    have hpos : 0 < s₄.rest.length := List.length_pos_iff.mpr hpos
    have hlt : s₄.rest.length < s.rest.length := by
      rcases hshort with hlt | hnil
      · omega
      · rw [hnil] at hle
        simp only [List.length_nil] at hle
        omega
    simp only [if_true, yields_bind, yields_pure]
    refine (ih.statements column hread.behind (by omega)).mono fun second s₅ h₅ => ?_
    exact ⟨.join h hread h₅.1 rfl rfl rfl rfl, h₅.2⟩

theorem statements_laid (column : Nat) (h : Parted s.prevEnd s.rest)
    (hn : 32 * s.rest.length + 10 ≤ n + 1) :
    (statements (n + 1) column).Yields s fun e s' => Laid s.place e s'.place ∧ s'.place.Clear := by
  rw [statements, yields_bind, yields_get]
  split
  case isTrue hlet =>
    rw [yields_bind]
    refine (ih.binding h hlet (by omega)).mono fun b s₁ h₁ => ?_
    have hlt := h₁.shorter
    rw [yields_bind, yields_get]
    split
    case isTrue hin => exact ih.letScope h₁ hin (by simp only at hlt; omega)
    case isFalse =>
      simp only [yields_bind, yields_pure]
      refine (skipStray_readsOff h₁.reads.behind).mono fun _ s₂ h₂ => ?_
      have hle := rest_le h₂.1
      refine (blockRest_laid h₂.1.behind h₂.2 fun _ =>
        ih.statements column h₂.1.behind (by simp only at hlt; omega)).mono fun scope s₃ h₃ => ?_
      exact ⟨h₁.scope (h₃.1.before h₂.1) h₃.2, h₃.2⟩
  case isFalse =>
    simp only [yields_bind, yields_get, yields_setAnchor, yields_ifStuck]
    refine Yields.mono (ih.expr (s := { s with anchor := _ }) h
      (show 32 * s.rest.length + 9 ≤ n by omega)) fun first s₁ h₁ => ?_
    have hle := rest_le h₁.1.reads
    split
    case isTrue hstuck =>
      have hshort : s₁.advance.rest.length < s.rest.length ∨ s₁.advance.rest = [] := by
        cases hend : s₁.atEnd with
        | true =>
          right
          simp [advance, List.isEmpty_iff.mp hend]
        | false =>
          left
          exact Nat.lt_of_lt_of_le (length_advance hend) hle
      exact furtherStatements_laid ih column h₁.1 (readsOff_advance h₁.1.reads.behind) hshort hn
    case isFalse hread =>
      have hlt : s₁.rest.length < s.rest.length := Nat.lt_of_le_of_ne hle hread
      exact furtherStatements_laid ih column h₁.1 (ReadsOff.refl h₁.1.reads.behind) (.inl hlt) hn

theorem expr_laid (h : Parted s.prevEnd s.rest) (hn : 32 * s.rest.length + 9 ≤ n + 1) :
    (expr (n + 1)).Yields s fun e s' => Laid s.place e s'.place ∧ s'.place.Clear := by
  rw [expr, yields_bind]
  refine (ih.simpleExpr h (by split <;> omega)).mono fun first s₁ h₁ => ?_
  have hle := rest_le h₁.1.reads
  rw [yields_bind]
  refine (ih.tupleItems h₁.1.reads.behind h₁.2 (by omega)).mono fun more s₂ h₂ => ?_
  split
  case h_1 last hlast =>
    rw [yields_pure]
    have hstart := h₂.1.start last hlast
    have hvalid := h₂.1.valid last hlast
    have hfirst := h₁.1.reaches.le_next h₁.1.reads.behind
    have hfirstValid := h₁.1.valid
    refine ⟨.of_children rfl ?_ ?_ ?_ ?_ ?_ ?_, h₂.2⟩
    · exact h₁.1.reads.trans h₂.1.reads
    · exact h₁.1.lies.append h₂.1.lies
    · exact Nat.le_min.mpr ⟨h₁.1.start, Nat.le_trans h₁.1.reads.stop_le hstart⟩
    · exact Span.merge_valid hfirstValid _
    · exact (h₂.1.reads.reaches h₁.1.reaches).max (h₂.1.reaches last hlast)
    · refine .of_children rfl fun c hc => ?_
      rcases List.mem_cons.mp hc with rfl | hc
      · exact h₁.1.within.merge_left _
      · refine (h₂.1.within last hlast c hc).mono ?_ (Nat.le_max_right _ _)
        exact Nat.le_trans (Nat.min_le_left _ _) (Nat.le_trans hfirstValid hfirst)
  case h_2 hnone =>
    rw [List.getLast?_eq_none_iff.mp hnone] at h₂
    exact ⟨h₁.1.andThen h₂.1.reads, h₂.2⟩

theorem tupleItems_laid (h : Parted s.prevEnd s.rest) (hclear : s.place.Clear)
    (hn : 32 * s.rest.length + 1 ≤ n + 1) :
    (tupleItems (n + 1)).Yields s fun es s' => SeriesLaid s.place es s'.place ∧ s'.place.Clear := by
  rw [tupleItems, yields_bind, yields_get]
  split
  case isFalse =>
    refine ⟨⟨.nil (ReadsOff.refl h), ?_, ?_, ?_, ?_⟩, hclear⟩
    all_goals rintro _ ⟨⟩
  case isTrue hcomma =>
    simp only [yields_bind, yields_skip, yields_pure]
    have h₁ := readsOff_advance h
    have hlt := length_advance (atEnd_of_peek (of_decide_eq_true (test_left hcomma)) (by simp))
    refine (ih.simpleExpr h₁.behind (by split <;> omega)).mono fun item s₂ h₂ => ?_
    have hitem := h₂.1.before h₁
    have hle := rest_le h₂.1.reads
    refine (ih.tupleItems h₂.1.reads.behind h₂.2 (by omega)).mono fun more s₃ h₃ => ?_
    have hall : LaidAll s.place (item :: more) s₃.place := .cons hitem h₃.1.toLaidAll
    refine ⟨?_, h₃.2⟩
    cases hmore : more.getLast? with
    | none =>
      rw [List.getLast?_eq_none_iff.mp hmore] at h₃ hall ⊢
      have hlast : ∀ last ∈ [item].getLast?, last = item := by simp
      refine ⟨hall, ?_, ?_, ?_, ?_⟩
      · exact fun last h => hlast last h ▸ hitem.start
      · exact fun last h => hlast last h ▸ hitem.valid
      · exact fun last h => hlast last h ▸ h₃.1.reads.reaches hitem.reaches
      · intro last h e he
        rw [hlast last h, List.mem_singleton.mp he]
        exact fun n hn => ⟨(hitem.reads.names hn).1, (hitem.within n hn).2⟩
    | some last =>
      have hlast : ∀ l ∈ (item :: more).getLast?, l = last := by
        intro l hl
        rw [List.getLast?_cons, hmore] at hl
        exact (Option.some.inj hl).symm
      have hstart := h₃.1.start last hmore
      have hvalid := h₃.1.valid last hmore
      refine ⟨hall, ?_, ?_, ?_, ?_⟩
      · exact fun l h => hlast l h ▸ Nat.le_trans hitem.reads.stop_le hstart
      · exact fun l h => hlast l h ▸ hvalid
      · exact fun l h => hlast l h ▸ h₃.1.reaches last hmore
      · intro l h e he
        rw [hlast l h]
        rcases List.mem_cons.mp he with rfl | he
        · exact hitem.reads.namesWithin (Nat.le_refl _) (Nat.le_trans hstart hvalid)
        · exact (h₃.1.within last hmore e he).mono hitem.reads.next_le (Nat.le_refl _)

theorem simpleExpr_laid (h : Parted s.prevEnd s.rest)
    (hn : 32 * s.rest.length + (if startsOpenExpr s.peek then 2 else 8) ≤ n + 1) :
    (simpleExpr (n + 1)).Yields s fun e s' => Laid s.place e s'.place ∧ s'.place.Clear := by
  rw [simpleExpr, yields_bind, yields_get]
  split
  case h_1 hlet =>
    rw [hlet] at hn
    rw [yields_bind]
    refine (ih.binding h hlet (by simp only [startsOpenExpr, if_true] at hn; omega)).mono
      fun b s₁ h₁ => ?_
    have hlt := h₁.shorter
    rw [yields_bind, yields_get]
    split
    case isTrue hin =>
      refine ih.letScope h₁ hin ?_
      simp only [startsOpenExpr, if_true] at hn hlt
      omega
    case isFalse =>
      simp only [yields_bind, yields_error, yields_pure, place_report]
      exact ⟨h₁.alone, h₁.clear⟩
  case h_2 hif =>
    rw [hif] at hn
    exact ih.conditional h hif (by simp only [startsOpenExpr, if_true] at hn; omega)
  case h_3 hfun =>
    rw [hfun] at hn
    exact ih.lambda h hfun (by simp only [startsOpenExpr, if_true] at hn; omega)
  case h_4 hlet hif hfun =>
    have hclosed : startsOpenExpr s.peek = false := by
      unfold startsOpenExpr
      split
      · exact (hif ‹_›).elim
      · exact (hfun ‹_›).elim
      · exact (hlet ‹_›).elim
      · rfl
    rw [hclosed] at hn
    exact ih.operand 0 h (by simp only [Bool.false_eq_true, if_false] at hn; omega)

theorem conditional_laid (h : Parted s.prevEnd s.rest) (hif : s.peek = .keyword .ifKw)
    (hn : 32 * s.rest.length + 1 ≤ n + 1) :
    (conditional (n + 1)).Yields s fun e s' => Laid s.place e s'.place ∧ s'.place.Clear := by
  have hend := atEnd_of_peek hif nofun
  have hlt := length_advance hend
  have h₁ := readsOff_advance h
  simp only [conditional, yields_bind, yields_bump, yields_get, yields_pure]
  refine (ih.expr h₁.behind (by omega)).mono fun condition s₂ h₂ => ?_
  have hle₂ := rest_le h₂.1.reads
  refine (thenPart_laid h₂.1.reads.behind h₂.2 fun s' h' _ =>
    ih.body h'.behind (by have := rest_le h'; omega)).mono fun thenBranch s₃ h₃ => ?_
  have hle₃ := rest_le h₃.1.reads
  refine (elsePart_laid h₃.1.reads.behind h₃.2 fun s' h' _ =>
    ih.body h'.behind (by have := rest_le h'; omega)).mono fun elseBranch s₄ h₄ => ⟨?_, h₄.2⟩
  have hall := (LaidAll.cons h₂.1 (.cons h₃.1 h₄.1)).before h₁
  have hread : ReadsOff (Expr.conditional ⟨s.current.span.start, s₄.prevEnd⟩ condition thenBranch
      elseBranch).landmarks s.place s₄.place := by
    cases elseBranch <;> simpa [Expr.landmarks, Expr.landmarksOfAll] using hall.reads
  have hlt' := Nat.lt_of_le_of_lt ((h₃.1.reads.trans h₄.1.reads).length_le) (Nat.lt_of_le_of_lt hle₂ hlt)
  refine .of_children rfl hread hall.lies (prevEnd_le_start h hend) ?_ (Place.reaches_stop _) ?_
  · exact Nat.le_trans (start_le_next hend) (hread.next_le_stop hlt').1
  · exact hread.namesWithin (start_le_next hend) (Nat.le_refl _)

theorem lambda_laid (h : Parted s.prevEnd s.rest) (hfun : s.peek = .keyword .funKw)
    (hn : 32 * s.rest.length + 1 ≤ n + 1) :
    (lambda (n + 1)).Yields s fun e s' => Laid s.place e s'.place ∧ s'.place.Clear := by
  have hend := atEnd_of_peek hfun (by simp)
  have hlt := length_advance hend
  have h₁ := readsOff_advance h
  simp only [lambda, yields_bind, yields_bump, yields_get, yields_pure]
  refine (params_readsOff h₁.behind (by omega)).mono fun parameters s₂ h₂ => ?_
  have hle₂ := rest_le h₂.1
  refine (when_place _ (missing_place _ s₂)).mono fun _ s₃ h₃ => ?_
  rw [← h₃] at h₂
  have hle₃ : s₃.rest.length ≤ s.advance.rest.length := h₂.1.length_le
  refine Yields.mono (behind_laid _ h₂.1.behind (by simp) fun s' h' _ =>
    ih.body h'.behind (by have := rest_le h'; omega)) fun value s₄ h₄ => ⟨?_, h₄.2 h₂.2⟩
  have hgap := (h₁.before h₂.1).sublist (List.nil_sublist _)
  have hvalue := h₄.1.before hgap
  have hread : ReadsOff (Expr.lambda ⟨s.current.span.start, s₄.prevEnd⟩ parameters value).landmarks
      s.place s₄.place := (h₁.before h₂.1).trans h₄.1.reads
  have hlt' := Nat.lt_of_le_of_lt h₄.1.reads.length_le (Nat.lt_of_le_of_lt hle₃ hlt)
  obtain ⟨hnext, hpos⟩ := hread.next_le_stop hlt'
  constructor
  case reads => exact hread
  case lies =>
    refine .lambda hvalue.start hvalue.within ?_ hvalue.lies (.nil (Cut.le_refl _))
    exact hvalue.reaches.lt_next (h₄.2 h₂.2) hpos
  case start => exact prevEnd_le_start h hend
  case valid => exact Nat.le_trans (start_le_next hend) hnext
  case reaches => exact Place.reaches_stop _
  case within => exact hread.namesWithin (start_le_next hend) (Nat.le_refl _)

theorem operand_laid (power : Nat) (h : Parted s.prevEnd s.rest) (hn : 32 * s.rest.length + 7 ≤ n + 1) :
    (operand (n + 1) power).Yields s fun e s' => Laid s.place e s'.place ∧ s'.place.Clear := by
  rw [operand, yields_bind]
  refine (ih.unary h (by omega)).mono fun lhs s₁ h₁ => ?_
  have hle := rest_le h₁.1.reads
  exact ih.operations power h₁.1 h₁.2 (by omega)

theorem operations_laid {lhs : Expr} (power : Nat) (h : Laid p lhs s.place) (hclear : s.place.Clear)
    (hn : 32 * s.rest.length + 1 ≤ n + 1) :
    (operations (n + 1) power lhs).Yields s fun e s' => Laid p e s'.place ∧ s'.place.Clear := by
  rw [operations, yields_bind, yields_get]
  split
  case h_1 => exact ⟨h, hclear⟩
  case h_2 op left right hop =>
    split
    case isTrue => exact ⟨h, hclear⟩
    case isFalse =>
      have hend : s.atEnd = false := by
        cases hend : s.atEnd with
        | false => rfl
        | true =>
          rw [peek, current, List.isEmpty_iff.mp hend] at hop
          cases hop
      have hlt := length_advance hend
      have h₁ := readsOff_advance h.reads.behind
      simp only [yields_bind, yields_bump]
      have hright : (rightOperand (simpleExpr n) (operand n right)).Yields s.advance fun e s' =>
          Laid s.advance.place e s'.place ∧ s'.place.Clear := by
        rw [rightOperand, yields_bind, yields_get]
        split
        · exact ih.simpleExpr h₁.behind (by split <;> omega)
        · exact ih.operand right h₁.behind (by omega)
      refine hright.mono fun rhs s₂ h₂ => ?_
      have hle := rest_le h₂.1.reads
      refine ih.operations power ?_ h₂.2 (by omega)
      have hrhs := h₂.1.before h₁
      have hop : s.prevEnd ≤ s.current.span.start := prevEnd_le_start h.reads.behind hend
      have hstop : s.current.span.stop = s.advance.prevEnd := (prevEnd_advance hend).symm
      have hple := h.reads.stop_le
      refine .of_children rfl (h.reads.trans hrhs.reads) (h.lies.append hrhs.lies) ?_ ?_ ?_ ?_
      · refine Nat.le_min.mpr ⟨Nat.le_min.mpr ⟨h.start, ?_⟩, Nat.le_trans hple hop⟩
        exact Nat.le_trans hple hrhs.start
      · exact Span.merge_valid (Span.merge_valid h.valid _) _
      · refine ((hrhs.reads.reaches h.reaches).max hrhs.reaches).max (h₂.1.reads.reaches ?_)
        exact hstop ▸ Place.reaches_stop _
      · refine .of_children rfl fun c hc => ?_
        simp only [Expr.children, List.mem_cons, List.not_mem_nil, or_false] at hc
        rcases hc with rfl | rfl
        · exact (h.within.merge_left _).merge_left _
        · exact (hrhs.within.merge_right _).merge_left _

theorem unary_laid (h : Parted s.prevEnd s.rest) (hn : 32 * s.rest.length + 6 ≤ n + 1) :
    (unary (n + 1)).Yields s fun e s' => Laid s.place e s'.place ∧ s'.place.Clear := by
  rw [unary, yields_bind, yields_get]
  split
  case isTrue hminus =>
    have hend := atEnd_of_peek (of_decide_eq_true (test_left hminus)) (by simp)
    have hlt := length_advance hend
    have h₁ := readsOff_advance h
    simp only [yields_bind, yields_bump, yields_pure]
    refine (ih.unary h₁.behind (by omega)).mono fun inner s₂ h₂ => ⟨?_, h₂.2⟩
    have hinner := h₂.1.before h₁
    have hstop : s.current.span.stop = s.advance.prevEnd := (prevEnd_advance hend).symm
    have hstart := prevEnd_le_start h hend
    refine .of_children rfl hinner.reads hinner.lies ?_ ?_ ?_ ?_
    · exact Nat.le_min.mpr ⟨hstart, hinner.start⟩
    · exact Nat.le_trans (Nat.min_le_right _ _) (Nat.le_trans hinner.valid (Nat.le_max_right _ _))
    · exact (h₂.1.reads.reaches (hstop ▸ Place.reaches_stop _)).max hinner.reaches
    · refine .of_children rfl fun c hc => ?_
      rw [List.mem_singleton.mp hc]
      exact hinner.within.merge_right _
  case isFalse =>
    rw [yields_bind]
    refine (ih.accessed h (by omega)).mono fun function s₁ h₁ => ?_
    have hle := rest_le h₁.1.reads
    exact ih.arguments h₁.1 (by omega)

theorem arguments_laid {function : Expr} (h : Laid p function s.place)
    (hn : 32 * s.rest.length + 5 ≤ n + 1) :
    (arguments (n + 1) function).Yields s fun e s' => Laid p e s'.place ∧ s'.place.Clear := by
  rw [arguments, yields_bind, yields_get]
  split
  case isTrue hmore =>
    obtain ⟨hstarts, hinside⟩ := Bool.and_eq_true_iff.mp hmore
    rw [yields_bind]
    refine (ih.accessed h.reads.behind (by omega)).mono fun argument s₁ h₁ => ?_
    have hlt := h₁.2 hstarts (by simpa using hinside)
    exact ih.arguments (.join h (ReadsOff.refl h.reads.behind) h₁.1 rfl rfl rfl rfl) (by omega)
  case isFalse hdone =>
    rw [yields_pure]
    refine ⟨h, ?_⟩
    cases hoffside : s.isOffside with
    | true => exact clear_of_isOffside h.reads.behind hoffside
    | false =>
      refine clear_of_not_ident h.reads.behind (isIdent_of_not_ident fun text hpeek => ?_)
      rw [hpeek, hoffside] at hdone
      exact absurd rfl hdone

theorem accessed_laid (h : Parted s.prevEnd s.rest) (hn : 32 * s.rest.length + 4 ≤ n + 1) :
    (accessed (n + 1)).Yields s fun e s' => Laid s.place e s'.place ∧
      (s.peek.startsAtom = true → s.isOffside = false → s'.rest.length < s.rest.length) := by
  rw [accessed, yields_bind]
  refine (ih.atom h (by omega)).mono fun target s₁ h₁ => ?_
  have hle := rest_le h₁.1.reads
  refine (ih.accesses h₁.1 (by omega)).mono fun e s₂ h₂ => ⟨h₂.1, fun hstarts hinside => ?_⟩
  exact Nat.lt_of_le_of_lt h₂.2 (h₁.2 hstarts hinside)

theorem accesses_laid {target : Expr} (h : Laid p target s.place)
    (hn : 32 * s.rest.length + 1 ≤ n + 1) :
    (accesses (n + 1) target).Yields s fun e s' =>
      Laid p e s'.place ∧ s'.rest.length ≤ s.rest.length := by
  rw [accesses, yields_bind, yields_get]
  split
  case h_1 hdot =>
    split
    case isTrue => exact ⟨h, Nat.le_refl _⟩
    case isFalse =>
      have hend := atEnd_of_peek hdot (by simp)
      have hlt := length_advance hend
      have h₁ := readsOff_landmark h.reads.behind hend (m := .dot s.current.span)
        (Prod.ext hdot.symm rfl)
      have hstart := prevEnd_le_start h.reads.behind hend
      have hstop : s.current.span.stop = s.advance.prevEnd := (prevEnd_advance hend).symm
      simp only [yields_bind, yields_bump]
      refine (memberName?_readsOff h₁.behind).mono fun name s₂ h₂ => ?_
      have hle := rest_le h₂
      cases name with
      | some name =>
        obtain ⟨hnext, hname⟩ := h₂.within (n := name) List.mem_cons_self rfl
        have hbefore := Nat.le_trans h₁.stop_le (Nat.le_trans (Place.stop_le_next h₁.behind) hnext)
        have hmember := h.access (h₁.trans h₂) hbefore (.inl hname) fun n hn =>
          Option.some.inj hn ▸ rfl
        refine (ih.accesses hmember (by omega)).mono fun e s₃ h₃ => ⟨h₃.1, by omega⟩
      | none =>
        have hmember := h.access (h₁.trans h₂) hstart (h₂.reaches (hstop ▸ Place.reaches_stop _))
          (by simp)
        simp only [yields_bind, yields_report]
        generalize hs₃ : s₂.report _ = s₃
        have hplace : s₃.place = s₂.place := by rw [← hs₃, place_report]
        have hrest : s₃.rest.length = s₂.rest.length := congrArg (·.rest.length) hplace
        rw [← hplace] at hmember
        refine (ih.accesses hmember (by omega)).mono fun e s₄ h₄ => ⟨h₄.1, by omega⟩
  case h_2 hparen =>
    split
    case isTrue => exact ⟨h, Nat.le_refl _⟩
    case isFalse =>
      have hend := atEnd_of_peek hparen (by simp)
      have hlt := length_advance hend
      simp only [yields_bind, yields_bump]
      refine Yields.mono (nested_yields (fun _ _ _ => id)
        (ih.callArguments (readsOff_advance h.reads.behind).behind
          (show 32 * s.advance.rest.length + 9 ≤ n by omega))) fun r s₂ h₂ => ?_
      have hle : s₂.rest.length ≤ s.advance.rest.length := h₂.1.reads.length_le
      refine (parentheses_yields s.current.span r.2 s₂).mono fun parens s₃ h₃ => ?_
      obtain ⟨hplace, rfl⟩ := h₃
      have hrest : s₃.rest.length = s₂.rest.length := congrArg (·.rest.length) hplace
      have hcall := call_laid h hend h₂.1 h₂.2
      rw [← hplace] at hcall
      refine (ih.accesses hcall (by omega)).mono fun e s₄ h₄ => ⟨h₄.1, by omega⟩
  case h_3 => exact ⟨h, Nat.le_refl _⟩

theorem callArguments_laid (h : Parted s.prevEnd s.rest) (hn : 32 * s.rest.length + 9 ≤ n + 1) :
    (callArguments (n + 1)).Yields s fun r s' => LaidAll s.place r.1 s'.place ∧
      ∀ close ∈ r.2, s.prevEnd ≤ close.start ∧ close.stop = s'.prevEnd := by
  rw [callArguments, yields_bind, yields_eat]
  split
  case isTrue hclose =>
    have hend := atEnd_of_peek hclose (by simp)
    refine ⟨.nil (readsOff_advance h), fun close hmem => ?_⟩
    obtain rfl := Option.some.inj hmem
    exact ⟨prevEnd_le_start h hend, (prevEnd_advance hend).symm⟩
  case isFalse =>
    rw [yields_bind, yields_get]
    split
    case isTrue => exact ⟨.nil (ReadsOff.refl h), by simp⟩
    case isFalse =>
      rw [yields_bind]
      refine (ih.simpleExpr h (by split <;> omega)).mono fun arg s₁ h₁ => ?_
      have hle := rest_le h₁.1.reads
      have hmore (s₂ : ParserState) (h₂ : ReadsOff [] s₁.place s₂.place)
          (hlt : s₂.rest.length < s.rest.length) : (callArgumentsFrom n arg).Yields s₂ fun r s' =>
          LaidAll s.place r.1 s'.place ∧
            ∀ close ∈ r.2, s.prevEnd ≤ close.start ∧ close.stop = s'.prevEnd := by
        simp only [callArgumentsFrom, yields_bind, yields_pure]
        refine (ih.callArguments h₂.behind (by omega)).mono fun r s₃ h₃ => ⟨?_, fun close hclose => ?_⟩
        · exact .cons (h₁.1.andThen h₂) h₃.1
        · obtain ⟨hstart, hstop⟩ := h₃.2 close hclose
          exact ⟨Nat.le_trans (h₁.1.reads.andThen h₂).stop_le hstart, hstop⟩
      rw [yields_bind, yields_eat]
      split
      case isTrue hcomma =>
        have hlt := length_advance (atEnd_of_peek hcomma (by simp))
        exact hmore _ (readsOff_advance h₁.1.reads.behind) (by omega)
      case isFalse =>
        rw [yields_bind, yields_get]
        split
        case isTrue => exact ⟨h₁.1.all, by simp⟩
        case isFalse hstay =>
          simp only [Bool.or_eq_true, not_or, decide_eq_true_eq] at hstay
          exact hmore s₁ (ReadsOff.refl h₁.1.reads.behind) (Nat.lt_of_le_of_ne hle hstay.1)

theorem parenthesised_laid (h : Parted s.prevEnd s.rest) (hparen : s.peek = .punct .lparen)
    (hn : 32 * s.rest.length + 1 ≤ n + 1) :
    (parenthesised (n + 1)).Yields s fun e s' =>
      Laid s.place e s'.place ∧ s'.rest.length < s.rest.length := by
  have hend := atEnd_of_peek hparen (by simp)
  have hlt := length_advance hend
  have h₁ := readsOff_advance h
  have hstart := prevEnd_le_start h hend
  have hstop : s.current.span.stop = s.advance.prevEnd := (prevEnd_advance hend).symm
  have hopener := Nat.le_trans (start_le_next hend) (h₁.next_le_stop hlt).1
  rw [parenthesised, yields_bind, yields_bump, yields_bind, yields_eat]
  split
  case isTrue hclose =>
    have hend₁ := atEnd_of_peek hclose (by simp)
    have h₂ := readsOff_advance h₁.behind
    have hread := h₁.before h₂
    have hstart₁ := prevEnd_le_start h₁.behind hend₁
    have hstop₁ : s.advance.current.span.stop = s.advance.advance.prevEnd :=
      (prevEnd_advance hend₁).symm
    rw [yields_pure]
    refine ⟨.of_children rfl hread (.nil hread.cut_le) ?_ ?_ ?_ ?_, ?_⟩
    · exact Nat.le_min.mpr ⟨hstart, Nat.le_trans h₁.stop_le hstart₁⟩
    · exact Span.merge_valid (hstop ▸ hopener) _
    · exact (h₂.reaches (hstop ▸ Place.reaches_stop _)).max (hstop₁ ▸ Place.reaches_stop _)
    · exact fun n hn => by simp [Expr.names, Expr.landmarks] at hn
    · exact Nat.lt_of_le_of_lt (rest_le h₂) hlt
  case isFalse =>
    rw [yields_bind]
    refine Yields.mono (nested_yields (fun _ _ _ => id) (ih.annotated h₁.behind
      (show 32 * s.advance.rest.length + 10 ≤ n by omega))) fun inner s₂ h₂ => ?_
    have h₂ : LaidAll s.advance.place [inner] s₂.place := h₂
    have hle := rest_le h₂.reads
    rw [yields_bind]
    refine (closing_readsOff _ _ h₂.reads.behind).mono fun stop s₃ h₃ => ?_
    obtain ⟨h₃, rfl⟩ := h₃
    have hinner := (h₂.before h₁).andThen h₃
    have hread : ReadsOff inner.landmarks s.place s₃.place := by
      simpa [Expr.landmarksOfAll] using hinner.reads
    have hle₃ := rest_le h₃
    refine ⟨.of_children rfl hread hinner.lies hstart ?_ (Place.reaches_stop _) ?_, ?_⟩
    · exact Nat.le_trans hopener (h₂.reads.andThen h₃).stop_le
    · exact hread.namesWithin (start_le_next hend) (Nat.le_refl _)
    · change s₃.rest.length < s.rest.length
      omega

theorem annotated_laid (h : Parted s.prevEnd s.rest) (hn : 32 * s.rest.length + 10 ≤ n + 1) :
    (annotated (n + 1)).Yields s fun e s' => LaidAll s.place [e] s'.place := by
  rw [annotated, yields_bind]
  refine (ih.expr h (by omega)).mono fun inner s₁ h₁ => ?_
  rw [yields_bind, yields_get]
  split
  case isTrue hcolon =>
    have h₂ := readsOff_advance h₁.1.reads.behind
    have hlt := length_advance (atEnd_of_peek (of_decide_eq_true (test_left hcolon)) (by simp))
    have hle := rest_le h₁.1.reads
    simp only [yields_bind, yields_skip, yields_pure]
    refine ((typesRead n).type h₂.behind (by omega)).mono fun t s₃ h₃ => ?_
    have hread := h₂.before h₃.1
    refine ⟨?_, .plain rfl (h₁.1.lies.up_to hread.cut_le)⟩
    simpa [Expr.landmarksOfAll, Expr.landmarks] using h₁.1.reads.trans hread
  case isFalse => exact h₁.1.all

theorem atom_laid (h : Parted s.prevEnd s.rest) (hn : 32 * s.rest.length + 3 ≤ n + 1) :
    (atom (n + 1)).Yields s fun e s' => Laid s.place e s'.place ∧
      (s.peek.startsAtom = true → s.isOffside = false → s'.rest.length < s.rest.length) := by
  rw [atom, yields_bind, yields_get]
  split
  case isTrue hoffside =>
    refine (missingExpr_laid h).mono fun e s' h' => ⟨h'.1, fun _ hinside => ?_⟩
    rw [hoffside] at hinside
    cases hinside
  case isFalse hinside =>
    have hend : s.atEnd = false := by
      refine Bool.eq_false_iff.mpr fun hend => hinside ?_
      rw [isOffside, if_pos hend]
    dsimp only
    split
    case h_1 text htoken =>
      simp only [yields_bind, yields_skip, yields_pure]
      exact ⟨nameAtom_laid h hend htoken, fun _ _ => length_advance hend⟩
    case h_2 htoken =>
      exact (ih.parenthesised h htoken (by omega)).mono fun e s' h' => ⟨h'.1, fun _ _ => h'.2⟩
    case h_3 htoken =>
      have hitem (s' : ParserState) (h' : Parted s'.prevEnd s'.rest)
          (hlt' : s'.rest.length < s.rest.length) :
          (some <$> expr n).Yields s' fun found s'' =>
            ItemsLaid Expr.landmarks id s'.place found.toList s''.place := by
        rw [yields_map]
        refine (ih.expr h' (by omega)).mono fun e s'' he => ?_
        exact ⟨by simpa using he.1.reads, he.1.lies⟩
      rw [yields_bind]
      refine (bracketed_laid h hend hitem n).mono fun r s₂ h₂ => ?_
      obtain ⟨items, stop⟩ := r
      obtain ⟨hitems, rfl⟩ := h₂
      have hlist := delimited_laid h hend hitems (e := .list ⟨s.current.span.start, s₂.prevEnd⟩ items) rfl rfl
        (by rw [Expr.landmarks, Expr.landmarksOfAll_eq]) (by rw [List.map_id]; rfl)
      exact ⟨hlist.1, fun _ _ => hlist.2⟩
    case h_4 htoken =>
      have hitem (s' : ParserState) (h' : Parted s'.prevEnd s'.rest)
          (hlt' : s'.rest.length < s.rest.length) :
          (recordField n).Yields s' fun found s'' =>
            ItemsLaid (fun f => .label f.1 :: f.2.landmarks) (·.2) s'.place found.toList s''.place :=
        ih.recordField h' (by omega)
      rw [yields_bind]
      refine (bracketed_laid h hend hitem n).mono fun r s₂ h₂ => ?_
      obtain ⟨fields, stop⟩ := r
      obtain ⟨hfields, rfl⟩ := h₂
      have hrecord := delimited_laid h hend hfields (e := .record ⟨s.current.span.start, s₂.prevEnd⟩ fields)
        rfl rfl (by rw [Expr.landmarks, Expr.landmarksOfFields_eq]) rfl
      exact ⟨hrecord.1, fun _ _ => hrecord.2⟩
    case h_5 htoken | h_6 htoken | h_7 htoken =>
      have hopen (hstarts : startsOpenExpr s.peek = true) (hnot : s.peek.startsAtom = false) :
          (simpleExpr n).Yields s fun e s' => Laid s.place e s'.place ∧
            (s.peek.startsAtom = true → s.isOffside = false → s'.rest.length < s.rest.length) := by
        refine (ih.simpleExpr h ?_).mono fun e s' h' => ⟨h'.1, fun hstarts => ?_⟩
        · rw [hstarts, if_pos rfl]
          omega
        · rw [hnot] at hstarts
          cases hstarts
      have hpeek : s.peek = _ := htoken
      exact hopen (by rw [hpeek]; rfl) (by rw [hpeek]; rfl)
    case h_8 hident hlparen hlbracket hlbrace hif hfun hlet =>
      have hnot : s.peek.isIdent = false := isIdent_of_not_ident hident
      refine (literalAtom_laid h hend hnot).mono fun e s' h' => ⟨h'.1, fun hstarts _ => ?_⟩
      refine h'.2 hstarts fun p hp => ?_
      rw [hp] at hstarts
      cases p with
      | lparen => exact hlparen hp
      | lbracket => exact hlbracket hp
      | lbrace => exact hlbrace hp
      | _ => cases hstarts

theorem recordField_laid (h : Parted s.prevEnd s.rest) (hn : 32 * s.rest.length + 9 ≤ n + 1) :
    (recordField (n + 1)).Yields s fun field s' =>
      ItemsLaid (fun f => .label f.1 :: f.2.landmarks) (·.2) s.place field.toList s'.place := by
  rw [recordField, yields_bind]
  refine (ident?_landmark h .label fun _ => rfl).mono fun name s₁ h₁ => ?_
  cases name with
  | none => exact .nil h₁.1
  | some name =>
    have hlt := h₁.2.1 rfl
    rw [yields_bind]
    refine Yields.mono (behind_laid _ h₁.1.behind (by simp) fun s' h' _ =>
      ih.expr h'.behind (by have := rest_le h'; omega)) fun value s₂ h₂ => ?_
    rw [yields_pure]
    refine ⟨?_, (h₂.1.before (h₁.1.sublist (List.nil_sublist _))).lies⟩
    simpa using h₁.1.trans h₂.1.reads

end

theorem exprsLaid (n : Nat) : ExprsLaid n := by
  induction n with
  | zero =>
    constructor
    case simpleExpr =>
      intro s _ hn
      split at hn <;> omega
    all_goals intros; omega
  | succ n ih =>
    exact {
      binding := binding_laid ih
      letScope := letScope_laid ih
      body := body_laid ih
      statements := statements_laid ih
      expr := expr_laid ih
      tupleItems := tupleItems_laid ih
      simpleExpr := simpleExpr_laid ih
      conditional := conditional_laid ih
      lambda := lambda_laid ih
      operand := operand_laid ih
      operations := operations_laid ih
      unary := unary_laid ih
      arguments := arguments_laid ih
      accessed := accessed_laid ih
      accesses := accesses_laid ih
      callArguments := callArguments_laid ih
      atom := atom_laid ih
      parenthesised := parenthesised_laid ih
      annotated := annotated_laid ih
      recordField := recordField_laid ih }

end Parser
end ScriptAnalyzer

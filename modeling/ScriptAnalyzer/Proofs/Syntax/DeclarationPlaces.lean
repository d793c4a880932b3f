import ScriptAnalyzer.Syntax.File
import ScriptAnalyzer.Proofs.Syntax.ExpressionPlaces

/-!
Declarations are read so that their parts stand in order. What a module declares can be named up to the
end of the module, and a module ends in front of the next name behind it. Where names can be used ends behind
the binding or the opening that brings them in, whatever is wrong with the text.
-/

namespace ScriptAnalyzer

/-- Whether the declaration holds no expression and opens no part of the text. -/
def Decl.isInert : Decl → Bool
  | .type _ _ _ | .directive _ _ | .error _ => true
  | _ => false

/-- Declarations of a module that ends at `stop`, one behind the other between two cuts. -/
inductive DeclsLie : Nat → List Decl → Cut → Cut → Prop
  | nil {stop : Nat} {a b : Cut} : a ≤ b → DeclsLie stop [] a b
  | inert {stop : Nat} {d : Decl} {ds : List Decl} {a m b : Cut} :
    d.isInert = true → a ≤ m → DeclsLie stop ds m b → DeclsLie stop (d :: ds) a b
  | expr {stop : Nat} {span : Span} {e : Expr} {ds : List Decl} {a m b : Cut} :
    Lies [e] a m → DeclsLie stop ds m b → DeclsLie stop (.expr span e :: ds) a b
  | binding {stop : Nat} {span : Span} {binding : Binding} {ds : List Decl} {a m b : Cut} :
    binding.toLetHead.Lies binding.body stop a m → binding.span.stop ≤ m.next →
    Lies [binding.body] a m → DeclsLie stop ds m b → DeclsLie stop (.binding span binding :: ds) a b
  | opening {stop : Nat} {span : Span} {path : LongIdent} {ds : List Decl} {a m b : Cut} :
    a ≤ m → a.stop ≤ span.stop → span.stop ≤ m.next → span.stop ≤ stop → DeclsLie stop ds m b →
    DeclsLie stop (.open span path :: ds) a b
  | module {stop : Nat} {span : Span} {name : Ident} {members ds : List Decl} {a l m k b : Cut} :
    a ≤ l → l.stop ≤ span.start → span.start ≤ l.next → DeclsLie span.stop members l m →
    m.stop ≤ span.stop → m ≤ k → span.stop < k.next → DeclsLie stop ds k b →
    DeclsLie stop (.module span name members :: ds) a b

namespace DeclsLie

variable {stop : Nat} {ds : List Decl} {a a' b : Cut}

theorem le (h : DeclsLie stop ds a b) : a ≤ b := by
  induction h with
  | nil h => exact h
  | inert _ h _ ih => exact Cut.le_trans h ih
  | expr h _ ih => exact Cut.le_trans h.le ih
  | binding _ _ h _ ih => exact Cut.le_trans h.le ih
  | opening h _ _ _ _ ih => exact Cut.le_trans h ih
  | module h _ _ _ _ h' _ _ ih₁ ih₂ =>
    exact Cut.le_trans h (Cut.le_trans ih₁ (Cut.le_trans h' ih₂))

theorem from_earlier (h : DeclsLie stop ds a b) (ha : a' ≤ a) : DeclsLie stop ds a' b := by
  induction h generalizing a' with
  | nil h => exact .nil (Cut.le_trans ha h)
  | inert hinert h hds _ => exact .inert hinert (Cut.le_trans ha h) hds
  | expr h hds _ => exact .expr (h.from_earlier ha) hds
  | binding hhead h hbody hds _ => exact .binding (hhead.from_earlier ha) h (hbody.from_earlier ha) hds
  | opening h h₁ h₂ h₃ hds _ => exact .opening (Cut.le_trans ha h) (Nat.le_trans ha.1 h₁) h₂ h₃ hds
  | module h h₁ h₂ hmembers h₃ h₄ h₅ hds _ _ =>
    exact .module (Cut.le_trans ha h) h₁ h₂ hmembers h₃ h₄ h₅ hds

theorem tail {d : Decl} (h : DeclsLie stop (d :: ds) a b) : DeclsLie stop ds a b := by
  cases h with
  | inert _ h hds => exact hds.from_earlier h
  | expr h hds => exact hds.from_earlier h.le
  | binding _ _ h hds => exact hds.from_earlier h.le
  | opening h _ _ _ hds => exact hds.from_earlier h
  | module h _ _ hmembers _ h' _ hds =>
    exact hds.from_earlier (Cut.le_trans h (Cut.le_trans hmembers.le h'))

end DeclsLie

/-- A declaration that a parser reads between two places. Behind it the parser goes on to a place in
front of which no name ends. -/
structure DeclLaid (p : Place) (d : Decl) (p' : Place) : Prop where
  reads : ReadsOff d.landmarks p p'
  lies : ∀ {stop : Nat} {ds : List Decl} {q : Place} {b : Cut}, p'.stop ≤ stop →
    ReadsOff [] p' q → q.Clear → DeclsLie stop ds q.cut b → DeclsLie stop (d :: ds) p.cut b

/-- Declarations that a parser reads one behind the other. -/
structure DeclsLaid (p : Place) (ds : List Decl) (p' : Place) : Prop where
  reads : ReadsOff (Decl.landmarksOfAll ds) p p'
  lies : ∀ {stop : Nat}, p'.stop ≤ stop → DeclsLie stop ds p.cut p'.cut

variable {p p' q : Place} {d : Decl} {ds : List Decl}

namespace DeclLaid

theorem of_inert (hinert : d.isInert = true) (h : ReadsOff d.landmarks p p') : DeclLaid p d p' :=
  ⟨h, fun _ hread _ hds => .inert hinert (h.andThen hread).cut_le hds⟩

theorem of_expr {e : Expr} (span : Span) (h : Laid p e p') : DeclLaid p (.expr span e) p' :=
  ⟨h.reads, fun _ hread _ hds => .expr (h.lies.up_to hread.cut_le) hds⟩

end DeclLaid

namespace DeclsLaid

theorem nil (h : ReadsOff [] p p') : DeclsLaid p [] p' := ⟨h, fun _ => .nil h.cut_le⟩

theorem cons {p₁ : Place} (hd : DeclLaid p d p₁) (hread : ReadsOff [] p₁ q) (hclear : q.Clear)
    (hds : DeclsLaid q ds p') : DeclsLaid p (d :: ds) p' where
  reads := hd.reads.trans (hread.before hds.reads)
  lies hstop := hd.lies (Nat.le_trans (hread.before hds.reads).stop_le hstop) hread hclear (hds.lies hstop)

end DeclsLaid

namespace Parser

open ParserState

variable {s : ParserState} {n : Nat}

theorem synchronize_readsOff (column : Nat) (h : Parted s.prevEnd s.rest) :
    (synchronize column).Yields s fun _ s' => ReadsOff [] s.place s'.place ∧ s'.place.Clear := by
  refine (skipWhile_readsOff _ h).mono fun _ s' h' => ⟨h'.1, ?_⟩
  refine Place.clear_of_head h'.1.behind fun t ht => .inl ?_
  have hstart := h'.2 t ht
  simp only [Bool.not_eq_false', Bool.and_eq_true] at hstart
  exact hstart.1

theorem expect_readsOff (token : Token) (what : String) (h : Parted s.prevEnd s.rest) :
    (expect token what).Yields s fun _ s' => ReadsOff [] s.place s'.place := by
  rw [yields_expect]
  split
  case isTrue => exact readsOff_advance h
  case isFalse => exact (missing_place what s).mono fun _ s' h' => h'.symm ▸ ReadsOff.refl h

/-! Types and directives -/

theorem fieldDecls_readsOff (unclosed : SyntaxError) (h : Parted s.prevEnd s.rest)
    (hn : 32 * s.rest.length + 5 ≤ n) :
    (fieldDecls unclosed n).Yields s fun fields s' =>
      ReadsOff (fields.flatMap fun f => .binding f.1 :: f.2.landmarks) s.place s'.place := by
  induction n generalizing s with
  | zero => omega
  | succ n ih =>
    rw [fieldDecls, yields_bind, yields_eat]
    split
    case isTrue => exact readsOff_advance h
    case isFalse =>
      rw [yields_bind, yields_get]
      split
      case isTrue => exact readsOff_report h _
      case isFalse hinside =>
        have hend := (halts_of_stays hinside).1
        rw [yields_bind, yields_eat]
        split
        case isTrue =>
          have h₁ := readsOff_advance h
          have hlt := length_advance hend
          exact (ih h₁.behind (by omega)).mono fun fields s₂ h₂ => h₁.before h₂
        case isFalse =>
          rw [yields_bind]
          refine (ident?_landmark h .binding fun _ => rfl).mono fun name s₁ h₁ => ?_
          cases name with
          | none =>
            obtain ⟨rfl, -⟩ := h₁.2.2 rfl
            rw [yields_bind]
            refine (reject_readsOff h).mono fun _ s₁ h₁ => ?_
            have hlt := h₁.2 hend
            exact (ih h₁.1.behind (by omega)).mono fun fields s₂ h₂ => h₁.1.before h₂
          | some name =>
            have hlt := h₁.2.1 rfl
            rw [yields_bind]
            refine (expect_readsOff _ _ h₁.1.behind).mono fun _ s₂ h₂ => ?_
            have hle₂ := rest_le h₂
            rw [yields_bind]
            refine ((typesRead n).type h₂.behind (by omega)).mono fun t s₃ h₃ => ?_
            have hle₃ := rest_le h₃.1
            simp only [yields_bind, yields_pure]
            refine (ih h₃.1.behind (by omega)).mono fun fields s₄ h₄ => ?_
            have hread := h₁.1.trans (h₂.before (h₃.1.trans h₄))
            simpa using hread

theorem typeDecl_laid (h : Parted s.prevEnd s.rest) (htype : s.peek = .keyword .typeKw)
    (hn : 32 * s.rest.length ≤ n) :
    (typeDecl n).Yields s fun shape s' => ∀ span, DeclLaid s.place (shape span) s'.place := by
  have hlt := length_advance (atEnd_of_peek htype (by simp))
  have h₁ := readsOff_advance h
  rw [typeDecl, yields_bind, yields_skip, yields_bind]
  refine (ident?_landmark h₁.behind .binding fun _ => rfl).mono fun name s₂ h₂ => ?_
  have hread₂ := h₁.before h₂.1
  have hle₂ := rest_le h₂.1
  cases name with
  | none =>
    rw [yields_bind]
    refine (missing_place _ s₂).mono fun _ s₃ h₃ span => ?_
    exact .of_inert rfl (h₃.symm ▸ hread₂)
  | some name =>
    rw [yields_bind]
    refine (expect_readsOff _ _ h₂.1.behind).mono fun found s₃ h₃ => ?_
    have hread₃ := hread₂.andThen h₃
    have hle₃ := rest_le h₃
    cases found with
    | none => exact fun span => .of_inert rfl (hread₃.sublist (List.nil_sublist _))
    | some _ =>
      simp only [yields_bind, yields_get]
      split
      case isTrue hbrace =>
        have hlt₃ := length_advance (atEnd_of_peek hbrace (by simp))
        have h₄ := readsOff_advance h₃.behind
        simp only [yields_bind, yields_bump, yields_get, yields_pure]
        refine Yields.mono (nested_yields (fun _ _ _ => id) (withOffside_yields (fun _ _ _ => id)
          (fieldDecls_readsOff _ (s := { s₃.advance with nesting := _, offside := _ }) h₄.behind
            (show 32 * s₃.advance.rest.length + 5 ≤ n by omega)))) fun fields s₅ h₅ span => ?_
        exact .of_inert rfl (hread₃.trans (h₄.before h₅))
      case isFalse =>
        simp only [yields_bind, yields_pure]
        refine ((typesRead n).type h₃.behind (by omega)).mono fun t s₄ h₄ span => ?_
        exact .of_inert rfl (hread₃.trans h₄.1)

theorem directiveArgs_readsOff (invalid : SyntaxError.Cause) (n : Nat) (h : Parted s.prevEnd s.rest) :
    (directiveArgs invalid n).Yields s fun _ s' => ReadsOff [] s.place s'.place := by
  induction n generalizing s with
  | zero => exact ReadsOff.refl h
  | succ n ih =>
    rw [directiveArgs, yields_bind, yields_get]
    dsimp only
    split
    case isTrue => exact ReadsOff.refl h
    case isFalse =>
      simp only [yields_bind, yields_skip, yields_pure]
      refine (when_place _ (report_place _ s)).mono fun _ s₁ h₁ => ?_
      have hread : ReadsOff [] s.place s₁.place := h₁.symm ▸ ReadsOff.refl h
      have h₂ := hread.before (readsOff_advance hread.behind)
      exact (ih h₂.behind).mono fun _ s₃ h₃ => h₂.before h₃

theorem directive_readsOff (raw : String) (n : Nat) (h : Parted s.prevEnd s.rest) :
    (directive raw n).Yields s fun _ s' => ReadsOff [] s.place s'.place := by
  simp only [directive, yields_bind, yields_bump, yields_get, yields_pure]
  have h₁ := readsOff_advance h
  refine (directiveArgs_readsOff _ n h₁.behind).mono fun args s₂ h₂ => ?_
  exact (when_place _ (report_place _ s₂)).mono fun _ s₃ h₃ => h₃.symm ▸ h₁.before h₂

/-! Declarations -/

structure DeclsAreLaid (n : Nat) : Prop where
  decls : ∀ {s} column, Parted s.prevEnd s.rest → 32 * s.rest.length + 13 ≤ n →
    (decls n column).Yields s fun ds s' => DeclsLaid s.place ds s'.place
  decl : ∀ {s} column, Parted s.prevEnd s.rest → s.atEnd = false → 32 * s.rest.length + 12 ≤ n →
    (decl n column).Yields s fun d s' => DeclLaid s.place d s'.place
  moduleDecl : ∀ {s} column, Parted s.prevEnd s.rest → s.peek = .keyword .moduleKw →
    32 * s.rest.length + 1 ≤ n → (moduleDecl n column).Yields s fun shape s' =>
      s'.rest.length < s.rest.length ∧
        DeclLaid s.place (shape ⟨s.current.span.start, s'.prevEnd⟩) s'.place

section

variable (ih : DeclsAreLaid n)
include ih

theorem decls_laid (column : Nat) (h : Parted s.prevEnd s.rest) (hn : 32 * s.rest.length + 13 ≤ n + 1) :
    (decls (n + 1) column).Yields s fun ds s' => DeclsLaid s.place ds s'.place := by
  rw [decls, yields_bind, yields_get]
  dsimp only
  split
  case isTrue => exact .nil (ReadsOff.refl h)
  case isFalse hinside =>
    have hend := (halts_of_stays hinside).1
    split
    case isTrue =>
      simp only [yields_bind, yields_error, yields_skip]
      generalize hs₁ : s.report _ = s₁
      have hplace : s₁.place = s.place := by rw [← hs₁, place_report]
      have hread : ReadsOff [] s.place s₁.place := hplace.symm ▸ ReadsOff.refl h
      have hrest : s₁.rest = s.rest := congrArg Place.rest hplace
      have h₁ := hread.before (readsOff_advance hread.behind)
      have hlt : s₁.advance.rest.length < s.rest.length :=
        hrest ▸ length_advance (by rw [atEnd, hrest]; exact hend)
      refine (synchronize_readsOff column h₁.behind).mono fun _ s₂ h₂ => ?_
      have hle := rest_le h₂.1
      refine (ih.decls column h₂.1.behind (by omega)).mono fun ds s₃ h₃ => ?_
      have hread₂ := h₁.before h₂.1
      exact ⟨hread₂.before h₃.reads, fun hstop => (h₃.lies hstop).from_earlier hread₂.cut_le⟩
    case isFalse =>
      simp only [yields_bind, yields_setAnchor, yields_get, yields_pure]
      refine Yields.mono (ih.decl column (s := { s with anchor := some s.rest.length }) h hend
        (show 32 * s.rest.length + 12 ≤ n by omega)) fun d s₁ h₁ => ?_
      have hle₁ : s₁.rest.length ≤ s.rest.length := h₁.reads.length_le
      -- a declaration that reads nothing is left with the token that is rejected
      have hstuck : (ifStuck s.rest.length reject).Yields s₁ fun _ s₂ =>
          ReadsOff [] s₁.place s₂.place ∧ s₂.rest.length < s.rest.length := by
        rw [yields_ifStuck]
        split
        case isTrue hsame =>
          refine (reject_readsOff h₁.reads.behind).mono fun _ s₂ h₂ => ⟨h₂.1, hsame ▸ h₂.2 ?_⟩
          obtain ⟨ts, hrest⟩ := rest_eq_cons hend
          rw [hrest] at hsame
          exact List.isEmpty_eq_false_iff.mpr (List.ne_nil_of_length_eq_add_one hsame)
        case isFalse hmoved =>
          exact ⟨ReadsOff.refl h₁.reads.behind, Nat.lt_of_le_of_ne hle₁ hmoved⟩
      refine hstuck.mono fun _ s₂ h₂ => ?_
      refine (when_place _ (unexpected_place s₂)).mono fun _ s₃ h₃ => ?_
      have hread₃ : ReadsOff [] s₁.place s₃.place := h₃.symm ▸ h₂.1
      have hrest₃ : s₃.rest = s₂.rest := congrArg Place.rest h₃
      refine (synchronize_readsOff column hread₃.behind).mono fun _ s₄ h₄ => ?_
      have hle₄ := rest_le h₄.1
      have hlt₂ := h₂.2
      rw [← hrest₃] at hlt₂
      refine (ih.decls column h₄.1.behind (by omega)).mono fun ds s₅ h₅ => ?_
      exact .cons h₁ (hread₃.before h₄.1) h₄.2 h₅

theorem moduleDecl_laid (column : Nat) (h : Parted s.prevEnd s.rest)
    (hmodule : s.peek = .keyword .moduleKw) (hn : 32 * s.rest.length + 1 ≤ n + 1) :
    (moduleDecl (n + 1) column).Yields s fun shape s' => s'.rest.length < s.rest.length ∧
      DeclLaid s.place (shape ⟨s.current.span.start, s'.prevEnd⟩) s'.place := by
  have hend := atEnd_of_peek hmodule nofun
  have hlt := length_advance hend
  have h₁ := readsOff_advance h
  rw [moduleDecl, yields_bind, yields_skip, yields_bind]
  refine (ident?_landmark h₁.behind .binding fun _ => rfl).mono fun name s₂ h₂ => ?_
  have hread₂ := h₁.before h₂.1
  have hle₂ := rest_le h₂.1
  cases name with
  | none =>
    rw [yields_bind]
    refine (missing_place _ s₂).mono fun _ s₃ h₃ => ?_
    have hread₃ : ReadsOff [] s₂.place s₃.place := h₃.symm ▸ ReadsOff.refl h₂.1.behind
    have hle₃ := rest_le hread₃
    exact ⟨show s₃.rest.length < _ by omega, .of_inert rfl (hread₂.andThen hread₃)⟩
  | some name =>
    rw [yields_bind]
    refine (expect_readsOff _ _ h₂.1.behind).mono fun found s₃ h₃ => ?_
    have hread₃ := hread₂.andThen h₃
    have hle₃ := rest_le h₃
    cases found with
    | none =>
      exact ⟨show s₃.rest.length < _ by omega, .of_inert rfl (hread₃.sublist (List.nil_sublist _))⟩
    | some _ =>
      -- the module ends behind its last declaration
      have hmodule (members : List Decl) (s₄ : ParserState) (h₄ : DeclsLaid s₃.place members s₄.place) :
          s₄.rest.length < s.rest.length ∧
            DeclLaid s.place (.module ⟨s.current.span.start, s₄.prevEnd⟩ name members) s₄.place := by
        have hle₄ := rest_le h₄.reads
        have hread₄ := hread₃.trans h₄.reads
        have hlt₄ : s₄.rest.length < s.rest.length := by omega
        have hpos := (hread₄.next_le_stop hlt₄).2
        refine ⟨hlt₄, hread₄, fun hstop hskip hclear hds => ?_⟩
        refine .module (Cut.le_refl _) (prevEnd_le_start h hend) (start_le_next hend)
          ((h₄.lies (Nat.le_refl _)).from_earlier hread₃.cut_le) (Nat.le_refl _) hskip.cut_le ?_ hds
        have hclear' := hclear (Nat.lt_of_lt_of_le hpos hskip.stop_le)
        exact Nat.lt_of_le_of_lt hskip.stop_le hclear'
      simp only [yields_bind, yields_get]
      split
      case isTrue =>
        simp only [yields_bind, yields_error, yields_pure]
        exact hmodule [] _ (.nil (readsOff_report h₃.behind _))
      case isFalse =>
        simp only [yields_bind, yields_pure]
        refine Yields.mono (withOffside_yields (fun _ _ _ => id)
          (ih.decls _ (s := { s₃ with offside := _ }) h₃.behind ?_)) fun members s₄ => hmodule members s₄
        change 32 * s₃.rest.length + 13 ≤ n
        omega

theorem decl_laid (column : Nat) (h : Parted s.prevEnd s.rest) (hend : s.atEnd = false)
    (hn : 32 * s.rest.length + 12 ≤ n + 1) :
    (decl (n + 1) column).Yields s fun d s' => DeclLaid s.place d s'.place := by
  have hlt := length_advance hend
  have h₁ := readsOff_advance h
  -- once a token is read, a declaration ends with the last token that was read
  have hspan {ms : List Landmark} {s' : ParserState} (hread : ReadsOff ms s.place s'.place)
      (hlt' : s'.rest.length < s.rest.length) :
      max s'.prevEnd s.current.span.start = s'.prevEnd :=
    Nat.max_eq_left (Nat.le_trans (start_le_next hend) (hread.next_le_stop hlt').1)
  simp only [decl, yields_bind, yields_get, yields_pure]
  split
  case h_1 hlet =>
    simp only [yields_bind, yields_get]
    refine ((exprsLaid n).binding h hlet (by omega)).mono fun b s₁ hb => ?_
    have hlt₁ : s₁.rest.length < s.rest.length := hb.shorter
    split
    case isTrue hin =>
      simp only [yields_bind, yields_pure]
      refine ((exprsLaid n).letScope hb hin (by omega)).mono fun e s₂ he => ?_
      exact .of_expr _ he.1
    case isFalse =>
      rw [yields_pure]
      refine ⟨hb.reads, fun hstop hskip hclear hds => ?_⟩
      refine .binding (hb.headLies hstop) ?_ hb.lies (hds.from_earlier hskip.cut_le)
      rw [hb.stop]
      exact Place.stop_le_next hb.reads.behind
  case h_2 =>
    simp only [yields_bind, yields_skip]
    refine (longIdent?_readsOff h₁.behind .label fun _ => rfl).mono fun path s₂ h₂ => ?_
    have hle₂ := rest_le h₂.1
    have hread := h₁.before h₂.1
    cases path with
    | some path =>
      rw [yields_pure]
      refine ⟨hread, fun hstop hskip hclear hds => ?_⟩
      rw [hspan hread (by omega)]
      exact .opening hread.cut_le hread.stop_le (Place.stop_le_next hread.behind) hstop
        (hds.from_earlier hskip.cut_le)
    | none =>
      simp only [yields_bind, yields_pure]
      refine (missing_place _ s₂).mono fun _ s₃ h₃ => ?_
      exact .of_inert rfl (h₃.symm ▸ hread)
  case h_3 hmodule =>
    refine (ih.moduleDecl column h hmodule (by omega)).mono fun shape s₂ h₂ => ?_
    rw [hspan h₂.2.reads h₂.1]
    exact h₂.2
  case h_4 htype =>
    exact (typeDecl_laid h htype (by omega)).mono fun shape s₂ h₂ => h₂ _
  case h_5 raw hraw =>
    simp only [yields_bind, yields_pure]
    exact (directive_readsOff raw _ h).mono fun d s₂ h₂ => .of_inert rfl h₂
  case h_6 =>
    simp only [yields_bind, yields_skip, yields_pure]
    refine ((exprsLaid n).body h₁.behind (by omega)).mono fun e s₂ he => ?_
    exact .of_expr _ (he.1.before h₁)
  case h_7 =>
    simp only [yields_bind, yields_pure]
    refine ((exprsLaid n).expr h (by omega)).mono fun e s₂ he => ?_
    refine (skipStray_readsOff he.1.reads.behind).mono fun _ s₃ h₃ => ?_
    exact .of_expr _ (he.1.andThen h₃.1)

end

theorem declsAreLaid (n : Nat) : DeclsAreLaid n := by
  induction n with
  | zero => constructor <;> intros <;> omega
  | succ n ih =>
    exact {
      decls := decls_laid ih
      decl := decl_laid ih
      moduleDecl := moduleDecl_laid ih }

theorem header_readsOff (h : Parted s.prevEnd s.rest) :
    header.Yields s fun found s' =>
      ReadsOff ((found.map fun name => name.parts.map .label).getD []) s.place s'.place := by
  simp only [header, yields_bind, yields_get]
  split
  case isTrue => exact ReadsOff.refl h
  case isFalse =>
    split
    case isTrue => exact ReadsOff.refl h
    case isFalse =>
      have h₁ := readsOff_advance h
      rw [yields_bind, yields_skip, yields_bind]
      refine (longIdent?_readsOff h₁.behind .label fun _ => rfl).mono fun name s₂ h₂ => ?_
      cases name with
      | some name => exact h₁.before h₂.1
      | none =>
        rw [yields_bind]
        refine (unexpected_place s₂).mono fun _ s₃ h₃ => ?_
        rw [yields_pure]
        exact h₃.symm ▸ h₁.before h₂.1

theorem file_laid (h : Parted s.prevEnd s.rest) (hn : 32 * s.rest.length + 13 ≤ n) :
    (file n).Yields s fun r s' => ∃ p,
      ReadsOff ((r.1.map fun name => name.parts.map .label).getD []) s.place p ∧
        DeclsLaid p r.2 s'.place := by
  rw [file, yields_bind]
  refine (header_readsOff h).mono fun name s₁ h₁ => ?_
  simp only [yields_bind, yields_get, yields_pure]
  have hle := rest_le h₁
  refine Yields.mono (withOffside_yields (fun _ _ _ => id) ((declsAreLaid n).decls _
    (s := { s₁ with offside := _ }) h₁.behind ?_)) fun ds s₂ h₂ => ⟨s₁.place, h₁, h₂⟩
  change 32 * s₁.rest.length + 13 ≤ n
  omega

end Parser

/-! Whole files -/

theorem lastStop_le {place size : Nat} {ts : List LaidToken} (hplace : place ≤ size)
    (h : ∀ t ∈ ts, t.span.stop ≤ size) : lastStop place ts ≤ size := by
  induction ts generalizing place with
  | nil => exact hplace
  | cons t ts ih =>
    rw [lastStop_cons]
    obtain ⟨ht, hts⟩ := List.forall_mem_cons.mp h
    exact ih ht hts

theorem Token.Stands.stop_le {text before piece rest : Text} {t : Token × Span}
    (h : Stands text t before piece rest) : t.2.stop ≤ text.byteSize := by
  rw [h.span_eq, h.text_eq, ← List.append_assoc, Text.byteSize_append (before ++ piece) rest]
  exact Nat.le_add_right _ _

namespace SyntaxFile

/-- The names and dots of the file, in the order of the text. -/
def landmarks (f : SyntaxFile) : List Landmark :=
  (f.header.map fun name => name.parts.map .label).getD [] ++ Decl.landmarksOfAll f.decls

variable (path : Path) (text : Text) (kind : SourceKind) (defines : List String)

theorem parse_laid : ∃ p p' : Place,
    ReadsOff (parse path text kind defines).landmarks (start text kind defines).place p' ∧
      DeclsLaid p (parse path text kind defines).decls p' := by
  have hparted : Parted (start text kind defines).prevEnd (start text kind defines).rest :=
    significantTokens_parted text defines
  have hfile := Parser.file_laid (n := depthBound (start text kind defines).rest.length) hparted
    (by rw [depthBound]; omega)
  obtain ⟨p, hheader, hdecls⟩ := hfile
  exact ⟨p, _, hheader.trans hdecls.reads, hdecls⟩

/-- The names and dots of a file are among its tokens, in the same order. -/
theorem landmarks_sublist : ((parse path text kind defines).landmarks.map Landmark.source).Sublist
    (Token.tokens text) := by
  obtain ⟨p, p', hread, -⟩ := parse_laid path text kind defines
  obtain ⟨read, hrest, -, hsub⟩ := hread.read
  refine hsub.trans (List.Sublist.trans (List.Sublist.map _ ?_) (significantTokens_sublist text defines))
  have hstart : (start text kind defines).rest = read ++ p'.rest := hrest
  rw [show (significantTokens text defines).1 = read ++ p'.rest from hstart]
  exact List.sublist_append_left _ _

theorem decls_lie : ∃ a b, DeclsLie text.byteSize (parse path text kind defines).decls a b ∧
    b.stop ≤ text.byteSize := by
  obtain ⟨p, p', hread, hdecls⟩ := parse_laid path text kind defines
  suffices hstop : p'.stop ≤ text.byteSize from ⟨_, _, hdecls.lies hstop, hstop⟩
  obtain ⟨read, hrest, hstop, -⟩ := hread.read
  rw [hstop]
  refine lastStop_le (Nat.zero_le _) fun t ht => ?_
  have hstart : (start text kind defines).rest = read ++ p'.rest := hrest
  have hmem : t.source ∈ (start text kind defines).rest.map LaidToken.source :=
    List.mem_map_of_mem (hstart ▸ List.mem_append_left _ ht)
  obtain ⟨before, piece, rest, hstands⟩ :=
    Token.tokens_stand ((significantTokens_sublist text defines).subset hmem)
  exact hstands.stop_le

end SyntaxFile

/-! The ends of scopes -/

namespace Expr

/-- What a binding in front of an expression brings into scope is not over before the binding is. -/
def EndsScope : Expr → Prop
  | letIn _ head _ body => head.span.stop ≤ body.span.stop
  | _ => True

def EndsScopes (e : Expr) : Prop := ∀ d ∈ e.preorder, d.EndsScope

theorem endsScopes_iff {e : Expr} : e.EndsScopes ↔ e.EndsScope ∧ ∀ c ∈ e.children, c.EndsScopes := by
  simp only [EndsScopes, preorder_eq e, List.forall_mem_cons, List.mem_flatMap]
  refine and_congr_right fun _ => ⟨fun h c hc d hd => h d ⟨c, hc, hd⟩, ?_⟩
  rintro h d ⟨c, hc, hd⟩
  exact h c hc d hd

theorem endsScope_of_isPlain {e : Expr} (h : e.isPlain = true) : e.EndsScope := by
  cases e with
  | letIn => cases h
  | _ => trivial

end Expr

theorem Lies.endsScopes {es : List Expr} {a b : Cut} (h : Lies es a b) : ∀ e ∈ es, e.EndsScopes := by
  induction h with
  | nil => exact nofun
  | plain hplain _ ih =>
    obtain ⟨hchildren, hes⟩ := List.forall_mem_append.mp ih
    exact List.forall_mem_cons.mpr
      ⟨Expr.endsScopes_iff.mpr ⟨Expr.endsScope_of_isPlain hplain, hchildren⟩, hes⟩
  | ident _ _ _ _ ih => exact List.forall_mem_cons.mpr ⟨Expr.endsScopes_iff.mpr ⟨trivial, nofun⟩, ih⟩
  | member _ _ _ _ ih ih' =>
    exact List.forall_mem_cons.mpr ⟨Expr.endsScopes_iff.mpr ⟨trivial, ih⟩, ih'⟩
  | lambda _ _ _ _ _ ih ih' =>
    exact List.forall_mem_cons.mpr ⟨Expr.endsScopes_iff.mpr ⟨trivial, ih⟩, ih'⟩
  | letIn hhead _ _ _ _ _ ih ih' ih'' =>
    refine List.forall_mem_cons.mpr ⟨Expr.endsScopes_iff.mpr ⟨hhead.ends, ?_⟩, ih''⟩
    exact List.forall_mem_cons.mpr ⟨ih _ List.mem_cons_self, ih'⟩

namespace Decl

mutual

/-- In a module that ends at `stop`, what a declaration brings into scope is not over before the
declaration is. -/
def EndsScopes (stop : Nat) : Decl → Prop
  | .binding _ b => b.span.stop ≤ stop ∧ b.body.EndsScopes
  | .open span _ => span.stop ≤ stop
  | .module span _ ds => AllEndScopes span.stop ds
  | .expr _ e => e.EndsScopes
  | .type _ _ _ | .directive _ _ | .error _ => True

def AllEndScopes (stop : Nat) : List Decl → Prop
  | [] => True
  | d :: ds => EndsScopes stop d ∧ AllEndScopes stop ds

end

theorem endsScopes_of_isInert {d : Decl} (h : d.isInert = true) (stop : Nat) : d.EndsScopes stop := by
  cases d with
  | type | directive | error => trivial
  | _ => cases h

end Decl

theorem DeclsLie.endScopes {stop : Nat} {ds : List Decl} {a b : Cut} (h : DeclsLie stop ds a b) :
    Decl.AllEndScopes stop ds := by
  induction h with
  | nil => trivial
  | inert hinert _ _ ih => exact ⟨Decl.endsScopes_of_isInert hinert _, ih⟩
  | expr he _ ih => exact ⟨he.endsScopes _ List.mem_cons_self, ih⟩
  | binding hhead _ hbody _ ih => exact ⟨⟨hhead.ends, hbody.endsScopes _ List.mem_cons_self⟩, ih⟩
  | opening _ _ _ hstop _ ih => exact ⟨hstop, ih⟩
  | module _ _ _ _ _ _ _ _ ih ih' => exact ⟨ih, ih'⟩

theorem SyntaxFile.parse_endsScopes (path : Path) (text : Text) (kind : SourceKind)
    (defines : List String) :
    Decl.AllEndScopes text.byteSize (parse path text kind defines).decls := by
  obtain ⟨a, b, hlies, -⟩ := decls_lie path text kind defines
  exact hlies.endScopes

end ScriptAnalyzer

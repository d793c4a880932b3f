import Mathlib.Order.MinMax
import ScriptAnalyzer.Proofs.Syntax.Reading
import ScriptAnalyzer.Proofs.Token.Indentation

/-!
The elementary steps of the parser on tokens that are moved. Places are only compared with each other and columns
only with columns, so a step from the moved state is the step from the state itself, moved.
-/

namespace ScriptAnalyzer

/-- Places are moved by `place`, which keeps their order, and columns by `column`. -/
structure Shift where
  place : Nat → Nat
  column : Nat
  strict : StrictMono place

namespace Shift

variable (σ : Shift)

def span : Span → Span := Span.map σ.place

def token : LaidToken → LaidToken := LaidToken.shift σ.place σ.column

def state (s : ParserState) : ParserState where
  rest := s.rest.map σ.token
  size := σ.place s.size
  prevEnd := σ.place s.prevEnd
  offside := s.offside + σ.column
  anchor := s.anchor
  nesting := s.nesting
  kind := s.kind
  errors := s.errors.map (·.mapSpan σ.span)

variable {σ} {s t : Span}

theorem span_merge : σ.span (s.merge t) = (σ.span s).merge (σ.span t) := by
  simp only [span, Span.map, Span.merge, σ.strict.monotone.map_min, σ.strict.monotone.map_max]

section State

variable (s : ParserState)

@[simp] theorem offside_state : (σ.state s).offside = s.offside + σ.column := rfl

@[simp] theorem prevEnd_state : (σ.state s).prevEnd = σ.place s.prevEnd := rfl

@[simp] theorem anchor_state : (σ.state s).anchor = s.anchor := rfl

@[simp] theorem nesting_state : (σ.state s).nesting = s.nesting := rfl

@[simp] theorem kind_state : (σ.state s).kind = s.kind := rfl

@[simp] theorem rest_state : (σ.state s).rest = s.rest.map σ.token := rfl

@[simp] theorem length_state : (σ.state s).rest.length = s.rest.length := List.length_map ..

@[simp] theorem atEnd_state : (σ.state s).atEnd = s.atEnd := List.isEmpty_map ..

@[simp] theorem peek_state : (σ.state s).peek = s.peek := by
  obtain ⟨rest⟩ := s
  cases rest <;> rfl

@[simp] theorem ahead_state (n : Nat) : (σ.state s).ahead n = s.ahead n := by
  rw [ParserState.ahead, ParserState.ahead, rest_state, ← List.map_drop]
  cases s.rest.drop n <;> rfl

@[simp] theorem lineStart_state : (σ.state s).current.lineStart = s.current.lineStart := by
  obtain ⟨rest⟩ := s
  cases rest <;> rfl

@[simp] theorem token_state : (σ.state s).current.token = s.current.token := peek_state s

@[simp] theorem span_state : (σ.state s).current.span = σ.span s.current.span := by
  obtain ⟨rest⟩ := s
  cases rest <;> rfl

theorem column_state (h : s.atEnd = false) : (σ.state s).current.column = s.current.column + σ.column := by
  obtain ⟨rest⟩ := s
  cases rest with
  | nil => cases h
  | cons t ts => rfl

@[simp] theorem beforeColumn_state (column : Nat) :
    (σ.state s).beforeColumn (column + σ.column) = s.beforeColumn column := by
  rw [ParserState.beforeColumn, ParserState.beforeColumn, atEnd_state, lineStart_state]
  cases h : s.atEnd with
  | true => rfl
  | false => simp only [column_state s h, Nat.add_lt_add_iff_right]

@[simp] theorem isOffside_state : (σ.state s).isOffside = s.isOffside := by
  rw [ParserState.isOffside, ParserState.isOffside, atEnd_state, lineStart_state, anchor_state, length_state, peek_state,
    offside_state]
  cases h : s.atEnd with
  | true => rfl
  | false => simp only [column_state s h, Nat.add_lt_add_iff_right, Nat.add_le_add_iff_right]

@[simp] theorem advance_state : (σ.state s).advance = σ.state s.advance := by
  obtain ⟨rest⟩ := s
  cases rest <;> rfl

theorem report_state (e : SyntaxError) : (σ.state s).report (e.mapSpan σ.span) = σ.state (s.report e) := by
  have hany : (σ.state s).errors.any (fun e' => e'.span.start == (e.mapSpan σ.span).span.start) =
      s.errors.any fun e' => e'.span.start == e.span.start := by
    rw [state, List.any_map]
    refine congrArg (List.any s.errors) (funext fun e' => Bool.eq_iff_iff.mpr ?_)
    simp only [Function.comp_apply, beq_iff_eq]
    exact σ.strict.injective.eq_iff
  rw [ParserState.report, ParserState.report, hany]
  split
  · rfl
  · simp only [state, List.map_append, List.map_cons, List.map_nil]

end State

end Shift

namespace Parser

open ParserState Shift

variable {α β γ δ : Type} {σ : Shift} {R : α → β → Prop} {S : γ → δ → Prop} {φ : α → β} {p : Parser α} {q : Parser β}
  {s : ParserState}

/-- From the moved state `q` does what `p` does from the state itself, and their results are related by `R`. -/
def Mirrors (σ : Shift) (R : α → β → Prop) (p : Parser α) (q : Parser β) (s : ParserState) : Prop :=
  R (p.run s).1 (q.run (σ.state s)).1 ∧ (q.run (σ.state s)).2 = σ.state (p.run s).2

/-- The second result is the image of the first one. -/
def Gives (φ : α → β) (a : α) (b : β) : Prop := b = φ a

theorem mirrors_pure {a : α} {b : β} (h : R a b) : Mirrors σ R (pure a) (pure b) s := ⟨h, rfl⟩

theorem Mirrors.bind {F : α → Parser γ} {G : β → Parser δ} (h : Mirrors σ R p q s)
    (hFG : ∀ a b s', R a b → Mirrors σ S (F a) (G b) s') : Mirrors σ S (p >>= F) (q >>= G) s := by
  have hnext := hFG _ _ (p.run s).2 h.1
  rw [Mirrors, ← h.2] at hnext
  exact hnext

theorem Mirrors.andThen {F : α → Parser γ} {G : β → Parser δ} (h : Mirrors σ (Gives φ) p q s)
    (hFG : ∀ a s', Mirrors σ S (F a) (G (φ a)) s') : Mirrors σ S (p >>= F) (q >>= G) s := by
  refine h.bind ?_
  rintro a _ s' rfl
  exact hFG a s'

theorem Mirrors.map_some (h : Mirrors σ (Gives φ) p q s) :
    Mirrors σ (Gives (Option.map φ)) (some <$> p) (some <$> q) s :=
  ⟨congrArg some h.1, h.2⟩

theorem mirrors_get {F : ParserState → Parser γ} {G : ParserState → Parser δ}
    (h : Mirrors σ S (F s) (G (σ.state s)) s) : Mirrors σ S (get >>= F) (get >>= G) s := h

theorem mirrors_modify {f g : ParserState → ParserState} (h : g (σ.state s) = σ.state (f s)) :
    Mirrors σ (Gives id) (modify f) (modify g) s := ⟨rfl, h⟩

theorem bump_mirrors (s : ParserState) : Mirrors σ (fun t t' => t'.span = σ.span t.span) bump bump s :=
  ⟨span_state s, advance_state s⟩

theorem skip_mirrors (s : ParserState) : Mirrors σ (Gives id) skip skip s := mirrors_modify (advance_state s)

theorem setAnchor_mirrors (s : ParserState) : Mirrors σ (Gives id) setAnchor setAnchor s := by
  refine mirrors_modify ?_
  rw [length_state]
  rfl

theorem report_mirrors {e e' : SyntaxError} (h : e' = e.mapSpan σ.span) (s : ParserState) :
    Mirrors σ (Gives id) (report e) (report e') s := by
  rw [h]
  exact mirrors_modify (report_state s e)

theorem error_mirrors {cause : SyntaxError.Cause} {span span' : Span} (h : span' = σ.span span) (s : ParserState) :
    Mirrors σ (Gives id) (error cause span) (error cause span') s :=
  report_mirrors (by rw [h]; rfl) s

theorem eat_mirrors (token : Token) (s : ParserState) :
    Mirrors σ (Gives (Option.map σ.span)) (eat token) (eat token) s := by
  refine mirrors_get ?_
  rw [peek_state]
  split
  · refine (bump_mirrors s).bind fun t t' s₁ ht => mirrors_pure ?_
    rw [ht]
    rfl
  · exact mirrors_pure rfl

theorem skipWhile_mirrors {f g : LaidToken → Bool} (h : ∀ t, g (σ.token t) = f t) (s : ParserState) :
    Mirrors σ (Gives id) (skipWhile f) (skipWhile g) s := by
  have hfun : g ∘ σ.token = f := funext h
  refine mirrors_modify ?_
  dsimp only
  rw [rest_state, List.takeWhile_map, List.dropWhile_map, hfun, List.getLast?_map]
  cases (s.rest.takeWhile f).getLast? <;> rfl

theorem unexpected_mirrors (s : ParserState) : Mirrors σ (Gives id) unexpected unexpected s := by
  refine mirrors_get ?_
  rw [atEnd_state, peek_state]
  split
  · exact error_mirrors rfl s
  · exact error_mirrors (span_state s) s

theorem missing_mirrors (what : String) (s : ParserState) : Mirrors σ (Gives id) (missing what) (missing what) s := by
  refine mirrors_get (error_mirrors ?_ s)
  rw [atEnd_state, lineStart_state, span_state]
  split <;> rfl

theorem when_mirrors {b : Bool} {p q : Parser Unit} (h : ∀ s, Mirrors σ (Gives id) p q s) (s : ParserState) :
    Mirrors σ (Gives id) (when b p) (when b q) s := by
  cases b with
  | false => exact mirrors_pure rfl
  | true => exact h s

theorem reject_mirrors (s : ParserState) : Mirrors σ (Gives id) reject reject s :=
  (unexpected_mirrors s).andThen fun _ => skip_mirrors

theorem ifStuck_mirrors (left : Nat) {p q : Parser Unit} (h : ∀ s, Mirrors σ (Gives id) p q s) (s : ParserState) :
    Mirrors σ (Gives id) (ifStuck left p) (ifStuck left q) s := by
  refine mirrors_get ?_
  rw [length_state]
  split
  · exact h s
  · exact mirrors_pure rfl

theorem expect_mirrors (token : Token) (what : String) (s : ParserState) :
    Mirrors σ (Gives (Option.map σ.span)) (expect token what) (expect token what) s := by
  refine (eat_mirrors token s).andThen fun found s₁ => ?_
  cases found with
  | some span => exact mirrors_pure rfl
  | none => exact (missing_mirrors what s₁).andThen fun _ s₂ => mirrors_pure rfl

theorem behind?_mirrors (token : Token) (h : ∀ s, Mirrors σ (Gives φ) p q s) (s : ParserState) :
    Mirrors σ (Gives (Option.map φ)) (behind? token p) (behind? token q) s := by
  refine (eat_mirrors token s).andThen fun found s₁ => ?_
  cases found with
  | some span => exact (h s₁).andThen fun a s₂ => mirrors_pure rfl
  | none => exact mirrors_pure rfl

theorem ident?_mirrors (s : ParserState) : Mirrors σ (Gives (Option.map (·.mapSpans σ.span))) ident? ident? s := by
  refine mirrors_get ?_
  rw [peek_state]
  split
  · refine (bump_mirrors s).bind fun t t' s₁ ht => mirrors_pure ?_
    rw [ht]
    rfl
  · exact mirrors_pure rfl

theorem segments_map (ts : List LaidToken) :
    segments (ts.map σ.token) = (segments ts).map (·.mapSpans σ.span) := by
  fun_induction segments ts with
  | case1 dotSpan dotColumn dotStart text span column lineStart ts ih =>
    exact congrArg (_ :: ·) ih
  | case2 ts hts =>
    have hnone : segments ts = [] := by
      rw [segments]
      exact hts
    unfold segments
    split
    case h_1 heq =>
      obtain ⟨⟨token, span, column, lineStart⟩, us, rfl, hdot, hus⟩ := List.map_eq_cons_iff.mp heq
      obtain ⟨⟨token', span', column', lineStart'⟩, vs, rfl, hname, -⟩ := List.map_eq_cons_iff.mp hus
      cases hdot
      cases hname
      exact absurd rfl (hts _ _ _ _ _ _ _ _)
    case h_2 => rfl

theorem longIdent?_mirrors (s : ParserState) :
    Mirrors σ (Gives (Option.map (·.mapSpans σ.span))) longIdent? longIdent? s := by
  refine (ident?_mirrors s).andThen fun head s₁ => ?_
  cases head with
  | none => exact mirrors_pure rfl
  | some head =>
    refine mirrors_get ?_
    rw [rest_state, segments_map]
    refine (mirrors_modify ?_).andThen fun _ s₂ => mirrors_pure rfl
    rw [List.length_map, rest_state, ← List.map_drop, List.getLast?_map]
    cases (segments s₁.rest).getLast? <;> rfl

theorem synchronize_mirrors (column : Nat) (s : ParserState) :
    Mirrors σ (Gives id) (synchronize column) (synchronize (column + σ.column)) s := by
  refine skipWhile_mirrors (fun t => ?_) s
  simp only [token, LaidToken.shift, Nat.add_le_add_iff_right]

theorem belongsOutside_state (s : ParserState) : belongsOutside (σ.state s) = belongsOutside s := by
  rw [belongsOutside, belongsOutside, peek_state, nesting_state]

theorem skipStray_mirrors (s : ParserState) : Mirrors σ (Gives id) skipStray skipStray s := by
  refine mirrors_get ?_
  rw [atEnd_state, lineStart_state, belongsOutside_state, peek_state]
  split
  · exact mirrors_pure rfl
  · refine (error_mirrors (span_state s) s).andThen fun _ => ?_
    exact skipWhile_mirrors fun t => rfl

theorem nested_mirrors (h : ∀ s, Mirrors σ R p q s) (s : ParserState) : Mirrors σ R (nested p) (nested q) s := by
  refine (mirrors_modify ?_).andThen fun _ s₁ => ?_
  · rfl
  · refine (h s₁).bind fun a b s₂ hab => ?_
    refine (mirrors_modify ?_).andThen fun _ s₃ => ?_
    · rfl
    · exact mirrors_pure hab

theorem withOffside_mirrors (column : Nat) (h : ∀ s, Mirrors σ R p q s) (s : ParserState) :
    Mirrors σ R (withOffside column p) (withOffside (column + σ.column) q) s := by
  refine mirrors_get ?_
  refine (mirrors_modify ?_).andThen fun _ s₁ => ?_
  · rfl
  · refine (h s₁).bind fun a b s₂ hab => ?_
    refine (mirrors_modify ?_).andThen fun _ s₃ => ?_
    · rfl
    · exact mirrors_pure hab

theorem closing_mirrors (close : Punct) {e e' : SyntaxError} (he : e' = e.mapSpan σ.span) (s : ParserState) :
    Mirrors σ (Gives σ.place) (closing close e) (closing close e') s := by
  refine (eat_mirrors (.punct close) s).andThen fun found s₁ => ?_
  cases found with
  | some span => exact mirrors_pure rfl
  | none => exact (report_mirrors he s₁).andThen fun _ s₂ => mirrors_get (mirrors_pure rfl)

end Parser
end ScriptAnalyzer

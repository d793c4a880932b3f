import ScriptAnalyzer.Syntax.File

namespace ScriptAnalyzer

namespace Parser

variable {α β : Type} {p : Parser α} {s : ParserState}

def Yields (p : Parser α) (s : ParserState) (Q : α → ParserState → Prop) : Prop :=
  Q (p.run s).1 (p.run s).2

theorem Yields.mono {Q R : α → ParserState → Prop} (h : p.Yields s Q)
    (hQR : ∀ a s', Q a s' → R a s') : p.Yields s R :=
  hQR _ _ h

theorem yields_run (p : Parser α) (s : ParserState) (Q : α → ParserState → Prop) :
    Yields p s Q ↔ Q (p.run s).1 (p.run s).2 :=
  Iff.rfl

/-- The arguments of a call from `arg` on, behind the comma. -/
def callArgumentsFrom (n : Nat) (arg : Expr) : Parser (List Expr × Option Span) := do
  let (args, close) ← callArguments n
  return (arg :: args, close)

theorem yields_bind (p : Parser α) (f : α → Parser β) (s : ParserState)
    (Q : β → ParserState → Prop) :
    Yields (p >>= f) s Q ↔ p.Yields s fun a s' => (f a).Yields s' Q :=
  Iff.rfl

theorem yields_pure (a : α) (s : ParserState) (Q : α → ParserState → Prop) :
    Yields (pure a) s Q ↔ Q a s :=
  Iff.rfl

theorem yields_map (f : α → β) (p : Parser α) (s : ParserState) (Q : β → ParserState → Prop) :
    Yields (f <$> p) s Q ↔ p.Yields s fun a => Q (f a) :=
  Iff.rfl

theorem yields_get (s : ParserState) (Q : ParserState → ParserState → Prop) :
    Yields get s Q ↔ Q s s :=
  Iff.rfl

theorem yields_modify (f : ParserState → ParserState) (s : ParserState)
    (Q : PUnit → ParserState → Prop) : Yields (modify f) s Q ↔ Q ⟨⟩ (f s) :=
  Iff.rfl

theorem yields_bump (s : ParserState) (Q : LaidToken → ParserState → Prop) :
    Yields bump s Q ↔ Q s.current s.advance :=
  Iff.rfl

theorem yields_skip (s : ParserState) (Q : Unit → ParserState → Prop) :
    Yields skip s Q ↔ Q () s.advance :=
  Iff.rfl

theorem yields_report (e : SyntaxError) (s : ParserState) (Q : Unit → ParserState → Prop) :
    Yields (report e) s Q ↔ Q () (s.report e) :=
  Iff.rfl

theorem yields_error (cause : SyntaxError.Cause) (span : Span) (s : ParserState)
    (Q : Unit → ParserState → Prop) :
    Yields (error cause span) s Q ↔ Q () (s.report { cause, span }) :=
  Iff.rfl

theorem yields_setAnchor (s : ParserState) (Q : Unit → ParserState → Prop) :
    Yields setAnchor s Q ↔ Q () { s with anchor := some s.rest.length } :=
  Iff.rfl

theorem yields_eat (token : Token) (s : ParserState) (Q : Option Span → ParserState → Prop) :
    Yields (eat token) s Q ↔
      if s.peek = token then Q (some s.current.span) s.advance else Q none s := by
  simp only [eat, yields_bind, yields_get]
  split <;> exact Iff.rfl

theorem yields_atStatement (column : Nat) (s : ParserState) (Q : Bool → ParserState → Prop)
    (h : ∀ b, (b = true → s.current.lineStart = true ∧ s.current.column = column) → Q b s) :
    Yields (atStatement column) s Q := by
  simp only [atStatement, yields_bind, yields_get, yields_pure]
  apply h
  intro hb
  simp only [Bool.and_eq_true, beq_iff_eq] at hb
  exact ⟨hb.1.1.2, hb.1.2⟩

end Parser

def lastStop (place : Nat) (read : List LaidToken) : Nat :=
  (read.getLast?.map (·.span.stop)).getD place

theorem lastStop_cons (place : Nat) (t : LaidToken) (ts : List LaidToken) :
    lastStop place (t :: ts) = lastStop t.span.stop ts := by
  rw [lastStop, List.getLast?_cons]
  cases h : ts.getLast? with
  | none => simp [lastStop, h]
  | some u => simp [lastStop, h]

theorem lastStop_append (place : Nat) (xs ys : List LaidToken) :
    lastStop place (xs ++ ys) = lastStop (lastStop place xs) ys := by
  rw [lastStop, List.getLast?_append]
  cases h : ys.getLast? with
  | none => simp [lastStop, h]
  | some t => simp [lastStop, h]

namespace ParserState

variable {T : LaidToken → Prop} {A B : Nat → Prop} {s s₁ s₂ : ParserState}

structure Reads (read : List LaidToken) (s s' : ParserState) : Prop where
  rest : s.rest = read ++ s'.rest
  prevEnd : s'.prevEnd = lastStop s.prevEnd read
  errors : s.errors <+: s'.errors
  offside : s'.offside = s.offside
  nesting : s'.nesting = s.nesting
  size : s'.size = s.size
  kind : s'.kind = s.kind

theorem Reads.refl (s : ParserState) : Reads [] s s :=
  ⟨rfl, rfl, List.prefix_rfl, rfl, rfl, rfl, rfl⟩

theorem Reads.trans {read₁ read₂ : List LaidToken} (h₁ : Reads read₁ s s₁)
    (h₂ : Reads read₂ s₁ s₂) : Reads (read₁ ++ read₂) s s₂ where
  rest := by rw [h₁.rest, h₂.rest, List.append_assoc]
  prevEnd := by rw [h₂.prevEnd, h₁.prevEnd, lastStop_append]
  errors := h₁.errors.trans h₂.errors
  offside := h₂.offside.trans h₁.offside
  nesting := h₂.nesting.trans h₁.nesting
  size := h₂.size.trans h₁.size
  kind := h₂.kind.trans h₁.kind

theorem errors_report (s : ParserState) (e : SyntaxError) :
    s.errors <+: (s.report e).errors ∧ ∃ e' ∈ (s.report e).errors, e'.span.start = e.span.start := by
  unfold report
  split
  case isTrue h =>
    obtain ⟨e', he', hstart⟩ := List.any_eq_true.mp h
    exact ⟨List.prefix_rfl, e', he', by simpa using hstart⟩
  case isFalse => exact ⟨List.prefix_append _ _, e, by simp, rfl⟩

theorem reads_report (s : ParserState) (e : SyntaxError) : Reads [] s (s.report e) := by
  have herr := (errors_report s e).1
  refine ⟨?_, ?_, herr, ?_, ?_, ?_, ?_⟩ <;> unfold report <;> split <;> rfl

theorem reads_current (h : s.atEnd = false) : Reads [s.current] s s.advance := by
  obtain ⟨t, ts, hrest⟩ : ∃ t ts, s.rest = t :: ts := by
    cases hrest : s.rest with
    | nil => simp [atEnd, hrest] at h
    | cons t ts => exact ⟨t, ts, rfl⟩
  rw [show s.current = t by simp [current, hrest],
    show s.advance = { s with rest := ts, prevEnd := t.span.stop } by simp [advance, hrest]]
  exact ⟨hrest, by simp [lastStop], List.prefix_rfl, rfl, rfl, rfl, rfl⟩

theorem reads_advance (s : ParserState) :
    Reads [] s s.advance ∨ s.atEnd = false ∧ Reads [s.current] s s.advance := by
  cases h : s.atEnd with
  | true =>
    left
    rw [show s.advance = s by simp [advance, List.isEmpty_iff.mp h]]
    exact Reads.refl s
  | false => exact .inr ⟨rfl, reads_current h⟩

theorem peek_advance (s : ParserState) : s.advance.peek = s.ahead 1 := by
  obtain ⟨rest⟩ := s
  rcases rest with _ | ⟨t, _ | ⟨u, rest⟩⟩ <;> rfl

theorem atEnd_report (s : ParserState) (e : SyntaxError) : (s.report e).atEnd = s.atEnd := by
  unfold report
  split <;> rfl

theorem current_report (s : ParserState) (e : SyntaxError) : (s.report e).current = s.current := by
  unfold report
  split <;> rfl

/-- A token of the kind `T` is accounted for if it starts at a place of `A` or at an error. -/
def Takes (T : LaidToken → Prop) (A : Nat → Prop) (s s' : ParserState) : Prop :=
  ∃ read, Reads read s s' ∧
    ∀ t ∈ read, T t → A t.span.start ∨ ∃ e ∈ s'.errors, e.span.start = t.span.start

def Passes (T : LaidToken → Prop) (s s' : ParserState) : Prop := Takes T (fun _ => False) s s'

theorem Takes.mono (h : Takes T A s s₁) (hAB : ∀ x, A x → B x) : Takes T B s s₁ := by
  obtain ⟨read, hr, ht⟩ := h
  exact ⟨read, hr, fun t hm hT => (ht t hm hT).imp_left (hAB _)⟩

theorem Takes.trans (h₁ : Takes T A s s₁) (h₂ : Takes T B s₁ s₂) :
    Takes T (fun x => A x ∨ B x) s s₂ := by
  obtain ⟨read₁, hr₁, ht₁⟩ := h₁
  obtain ⟨read₂, hr₂, ht₂⟩ := h₂
  refine ⟨read₁ ++ read₂, hr₁.trans hr₂, ?_⟩
  intro t hm hT
  rcases List.mem_append.mp hm with hm | hm
  · rcases ht₁ t hm hT with ha | ⟨e, he, hstart⟩
    · exact .inl (.inl ha)
    · exact .inr ⟨e, hr₂.errors.subset he, hstart⟩
  · exact (ht₂ t hm hT).imp_left .inr

theorem Takes.offside (h : Takes T A s s₁) : s₁.offside = s.offside := h.choose_spec.1.offside

theorem Takes.le_offside {c : Nat} (h : Takes T A s s₁) (hc : c ≤ s.offside) : c ≤ s₁.offside :=
  h.offside ▸ hc

theorem Takes.errors (h : Takes T A s s₁) : s.errors <+: s₁.errors := h.choose_spec.1.errors

theorem Passes.takes (h : Passes T s s₁) : Takes T A s s₁ := h.mono fun _ => False.elim

theorem Takes.passes (h₁ : Takes T A s s₁) (h₂ : Passes T s₁ s₂) : Takes T A s s₂ :=
  (h₁.trans h₂).mono fun _ h => h.elim id False.elim

theorem Passes.trans_takes (h₁ : Passes T s s₁) (h₂ : Takes T A s₁ s₂) : Takes T A s s₂ :=
  (Takes.trans h₁ h₂).mono fun _ h => h.elim False.elim id

theorem Passes.trans (h₁ : Passes T s s₁) (h₂ : Passes T s₁ s₂) : Passes T s s₂ := h₁.trans_takes h₂

theorem Passes.le_offside {c : Nat} (h : Passes T s s₁) (hc : c ≤ s.offside) : c ≤ s₁.offside :=
  Takes.le_offside h hc

theorem Passes.refl (s : ParserState) : Passes T s s := ⟨[], Reads.refl s, by simp⟩

theorem passes_report (s : ParserState) (e : SyntaxError) : Passes T s (s.report e) :=
  ⟨[], reads_report s e, by simp⟩

theorem takes_advance (h : s.atEnd = false → T s.current →
    A s.current.span.start ∨ ∃ e ∈ s.errors, e.span.start = s.current.span.start) :
    Takes T A s s.advance := by
  rcases reads_advance s with hr | ⟨hend, hr⟩
  · exact ⟨_, hr, by simp⟩
  · refine ⟨_, hr, ?_⟩
    intro t hm hT
    rw [List.mem_singleton] at hm
    subst hm
    refine (h hend hT).imp_right ?_
    rintro ⟨e, he, hstart⟩
    exact ⟨e, hr.errors.subset he, hstart⟩

theorem passes_advance (h : ¬T s.current) : Passes T s s.advance :=
  takes_advance fun _ hT => absurd hT h

def Opening (T : LaidToken → Prop) (s : ParserState) (place : Nat) : Prop :=
  T s.current ∧ s.current.span.start = place

theorem takes_opening (s : ParserState) : Takes T (Opening T s) s s.advance :=
  takes_advance fun _ hT => .inl ⟨hT, rfl⟩

theorem passes_anchor (s : ParserState) (n : Option Nat) : Passes T s { s with anchor := n } :=
  ⟨[], ⟨rfl, rfl, List.prefix_rfl, rfl, rfl, rfl, rfl⟩, by simp⟩

end ParserState

def Token.opensDecl : Token → Bool
  | .keyword .letKw | .keyword .openKw | .keyword .moduleKw | .keyword .typeKw => true
  | _ => false

structure Resuming (T : LaidToken → Prop) (c : Nat) : Prop where
  lineStart : ∀ {t}, T t → t.lineStart = true
  column : ∀ {t}, T t → t.column = c
  opens : ∀ {t}, T t → t.token.opensDecl = true

namespace Resuming

variable {T : LaidToken → Prop} {c : Nat} {s : ParserState}

theorem not_current (hT : Resuming T c) {token : Token} (h : s.peek = token)
    (htoken : token.opensDecl = false) : ¬T s.current := by
  intro ht
  have hopen := hT.opens ht
  change s.peek.opensDecl = true at hopen
  rw [h, htoken] at hopen
  cases hopen

theorem not_continuing (hT : Resuming T c) {t : LaidToken} (h : t.lineStart = false) : ¬T t := by
  intro ht
  rw [hT.lineStart ht] at h
  cases h

theorem not_right (hT : Resuming T c) {t : LaidToken} (h : c < t.column) : ¬T t := by
  intro ht
  rw [hT.column ht] at h
  exact absurd h (Nat.lt_irrefl c)

end Resuming

namespace Parser

open ParserState

variable {α : Type} {T : LaidToken → Prop} {A : Nat → Prop} {c : Nat} {s : ParserState}

theorem pure_takes (a : α) {A : α → Nat → Prop} (s : ParserState) :
    (pure a : Parser α).Yields s fun a => Takes T (A a) s :=
  (Passes.refl s).takes

theorem when_passes {b : Bool} {p : Parser Unit} (h : p.Yields s fun _ => Passes T s) :
    (when b p).Yields s fun _ => Passes T s := by
  cases b with
  | false => exact Passes.refl s
  | true => exact h

theorem error_passes (cause : SyntaxError.Cause) (span : Span) (s : ParserState) :
    (error cause span).Yields s fun _ => Passes T s :=
  passes_report s _

theorem unexpected_passes (s : ParserState) : unexpected.Yields s fun _ => Passes T s := by
  simp only [unexpected, yields_bind, yields_get]
  split
  · exact passes_report s _
  · exact passes_report s _

theorem missing_passes (what : String) (s : ParserState) :
    (missing what).Yields s fun _ => Passes T s :=
  passes_report s _

theorem reject_passes (s : ParserState) : reject.Yields s fun _ => Passes T s := by
  simp only [reject, unexpected, yields_bind, yields_get, yields_skip]
  split <;> simp only [yields_error]
  case isTrue hend =>
    refine (passes_report s _).trans_takes (takes_advance fun hnot _ => ?_)
    rw [atEnd_report, hend] at hnot
    cases hnot
  case isFalse =>
    refine (passes_report s _).trans_takes (takes_advance fun _ _ => .inr ?_)
    rw [current_report]
    exact (errors_report s _).2

theorem ifStuck_passes {left : Nat} {p : Parser Unit} (h : p.Yields s fun _ => Passes T s) :
    (ifStuck left p).Yields s fun _ => Passes T s := by
  simp only [ifStuck, yields_bind, yields_get]
  split
  · exact h
  · exact Passes.refl s

theorem eat_passes (hT : Resuming T c) {token : Token} (htoken : token.opensDecl = false)
    (s : ParserState) : (eat token).Yields s fun _ => Passes T s := by
  simp only [eat, yields_bind, yields_get]
  split
  case isTrue h => exact passes_advance (hT.not_current h htoken)
  case isFalse => exact Passes.refl s

theorem expect_passes (hT : Resuming T c) {token : Token} (htoken : token.opensDecl = false)
    (what : String) (s : ParserState) : (expect token what).Yields s fun _ => Passes T s := by
  simp only [expect, yields_bind]
  refine (eat_passes hT htoken s).mono fun found s₁ h₁ => ?_
  cases found with
  | some span => exact h₁
  | none => exact (missing_passes what s₁).mono fun _ s₂ h₂ => h₁.trans h₂

theorem behind?_passes (hT : Resuming T c) {token : Token} (htoken : token.opensDecl = false)
    {p : Parser α} (hp : ∀ s', p.Yields s' fun _ => Passes T s') (s : ParserState) :
    (behind? token p).Yields s fun _ => Passes T s := by
  simp only [behind?, yields_bind]
  refine (eat_passes hT htoken s).mono fun found s₁ h₁ => ?_
  cases found with
  | none => exact h₁
  | some span => exact (hp s₁).mono fun a s₂ h₂ => h₁.trans h₂

theorem ident?_passes (hT : Resuming T c) (s : ParserState) :
    ident?.Yields s fun _ => Passes T s := by
  simp only [ident?, yields_bind, yields_get]
  split
  case h_1 text h => exact passes_advance (hT.not_current h rfl)
  case h_2 => exact Passes.refl s

theorem segments_read (ts : List LaidToken) :
    ∃ read, ts = read ++ ts.drop (2 * (segments ts).length) ∧
      (∀ t ∈ read, t.token.opensDecl = false) ∧
      ∀ place, lastStop place read = (((segments ts).getLast?.map (·.span.stop)).getD place) := by
  fun_induction segments ts with
  | case1 dotSpan dotColumn dotStart text span column lineStart ts ih =>
    obtain ⟨read, heq, hopens, hstop⟩ := ih
    refine ⟨⟨.punct .dot, dotSpan, dotColumn, dotStart⟩ :: ⟨.ident text, span, column, lineStart⟩ :: read,
      ?_, ?_, ?_⟩
    · rw [List.length_cons, Nat.mul_add, List.drop_succ_cons, List.drop_succ_cons]
      exact congrArg (_ :: _ :: ·) heq
    · simp only [List.mem_cons]
      rintro t (rfl | rfl | ht)
      · rfl
      · rfl
      · exact hopens t ht
    · intro place
      rw [lastStop_cons, lastStop_cons, List.getLast?_cons]
      refine (hstop span.stop).trans ?_
      cases (segments ts).getLast? with
      | none => rfl
      | some name => rfl
  | case2 => exact ⟨[], by simp, by simp, by simp [lastStop]⟩

theorem longIdent?_passes (hT : Resuming T c) (s : ParserState) :
    longIdent?.Yields s fun _ => Passes T s := by
  simp only [longIdent?, yields_bind]
  refine (ident?_passes hT s).mono fun head s₁ h₁ => ?_
  cases head with
  | none => exact h₁
  | some head =>
    simp only [yields_bind, yields_get, yields_modify, yields_pure]
    obtain ⟨read, heq, hopens, hstop⟩ := segments_read s₁.rest
    refine h₁.trans_takes ⟨read, ⟨heq, (hstop _).symm, List.prefix_rfl, rfl, rfl, rfl, rfl⟩, ?_⟩
    intro t hm ht
    have hopen := hT.opens ht
    rw [hopens t hm] at hopen
    cases hopen

theorem skipWhile_passes {p : LaidToken → Bool} (hp : ∀ t, T t → p t = false) (s : ParserState) :
    (skipWhile p).Yields s fun _ => Passes T s := by
  simp only [skipWhile, yields_modify]
  refine ⟨s.rest.takeWhile p, ⟨?_, rfl, List.prefix_rfl, rfl, rfl, rfl, rfl⟩, ?_⟩
  · exact List.takeWhile_append_dropWhile.symm
  · intro t hm ht
    have hread := List.all_eq_true.mp List.all_takeWhile t hm
    rw [hp t ht] at hread
    cases hread

theorem synchronize_passes (hT : Resuming T c) {column : Nat} (hc : c ≤ column) (s : ParserState) :
    (synchronize column).Yields s fun _ => Passes T s := by
  refine skipWhile_passes (fun t ht => ?_) s
  simp [hT.lineStart ht, hT.column ht, hc]

theorem skipStray_passes (hT : Resuming T c) (s : ParserState) :
    skipStray.Yields s fun _ => Passes T s := by
  simp only [skipStray, yields_bind, yields_get]
  split
  · exact Passes.refl s
  · simp only [yields_bind, yields_error]
    refine (skipWhile_passes (fun t ht => ?_) _).mono fun _ s₁ h₁ => (passes_report s _).trans h₁
    simp [hT.lineStart ht]

theorem closing_passes (hT : Resuming T c) (close : Punct) (e : SyntaxError) (s : ParserState) :
    (closing close e).Yields s fun _ => Passes T s := by
  simp only [closing, yields_bind]
  refine (eat_passes hT rfl s).mono fun found s₁ h₁ => ?_
  cases found with
  | some span => exact h₁
  | none => exact h₁.trans (passes_report s₁ e)

theorem nested_takes {p : Parser α} {A : α → Nat → Prop}
    (hp : p.Yields { s with nesting := s.nesting + 1 } fun a =>
      Takes T (A a) { s with nesting := s.nesting + 1 }) :
    (nested p).Yields s fun a => Takes T (A a) s := by
  simp only [nested, yields_bind, yields_modify, yields_pure]
  refine hp.mono fun a s₁ h₁ => ?_
  obtain ⟨read, hr, ht⟩ := h₁
  refine ⟨read, ⟨hr.rest, hr.prevEnd, hr.errors, hr.offside, ?_, hr.size, hr.kind⟩, ht⟩
  exact Nat.sub_eq_of_eq_add hr.nesting

theorem nested_passes {p : Parser α} (hp : ∀ s', p.Yields s' fun _ => Passes T s') (s : ParserState) :
    (nested p).Yields s fun _ => Passes T s :=
  nested_takes (A := fun _ _ => False) (hp _)

theorem withOffside_takes {column : Nat} {p : Parser α} {A : α → Nat → Prop}
    (hp : p.Yields { s with offside := column } fun a => Takes T (A a) { s with offside := column }) :
    (withOffside column p).Yields s fun a => Takes T (A a) s := by
  simp only [withOffside, yields_bind, yields_get, yields_modify, yields_pure]
  refine hp.mono fun a s₁ h₁ => ?_
  obtain ⟨read, hr, ht⟩ := h₁
  exact ⟨read, ⟨hr.rest, hr.prevEnd, hr.errors, rfl, hr.nesting, hr.size, hr.kind⟩, ht⟩

end Parser
end ScriptAnalyzer

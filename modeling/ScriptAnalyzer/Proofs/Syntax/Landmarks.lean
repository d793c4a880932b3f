import ScriptAnalyzer.Proofs.Syntax.Recovery
import ScriptAnalyzer.Proofs.Token.Lines

/-!
The names and dots of a tree, in the order of the text, and how a parser reads them off its tokens.
-/

namespace ScriptAnalyzer

/-- A name or a dot of the source, with its part in the tree. -/
inductive Landmark where
  /-- A name that a pattern, a field or another declaration brings in. -/
  | binding (name : Ident)
  /-- A name as an expression. -/
  | use (name : Ident)
  | dot (span : Span)
  /-- The name behind a dot. -/
  | member (name : Ident)
  /-- A name in a type or in an `open`, or the label of a field. -/
  | label (name : Ident)
deriving DecidableEq

def Ident.source (n : Ident) : Token × Span := (.ident n.text, n.span)

def Landmark.source : Landmark → Token × Span
  | binding n | use n | member n | label n => n.source
  | dot span => (.punct .dot, span)

def LaidToken.source (t : LaidToken) : Token × Span := (t.token, t.span)

/-! The landmarks of trees -/

namespace TypeExpr

mutual

def names : TypeExpr → List Ident
  | named _ n => n.parts
  | var _ _ | error _ => []
  | app _ argument ctor => names argument ++ ctor.parts
  | array _ element => names element
  | function _ domain codomain => names domain ++ names codomain
  | tuple _ items => namesOfAll items

def namesOfAll : List TypeExpr → List Ident
  | [] => []
  | t :: ts => names t ++ namesOfAll ts

end

def landmarks (t : TypeExpr) : List Landmark := t.names.map .label

@[simp] theorem landmarks_withSpan (t : TypeExpr) (span : Span) :
    (t.withSpan span).landmarks = t.landmarks := by
  cases t <;> simp only [withSpan, landmarks, names]

end TypeExpr

namespace Pattern

mutual

def landmarks : Pattern → List Landmark
  | named _ n => [.binding n]
  | wildcard _ | unit _ | error _ => []
  | tuple _ items => landmarksOfAll items
  | typed _ inner t => landmarks inner ++ t.landmarks

def landmarksOfAll : List Pattern → List Landmark
  | [] => []
  | p :: ps => landmarks p ++ landmarksOfAll ps

end

@[simp] theorem landmarks_withSpan (p : Pattern) (span : Span) :
    (p.withSpan span).landmarks = p.landmarks := by
  cases p <;> simp only [withSpan, landmarks]

end Pattern

def LetHead.landmarks (head : LetHead) : List Landmark :=
  head.pattern.landmarks ++ Pattern.landmarksOfAll head.params ++
    (head.returnType.map TypeExpr.landmarks).getD []

namespace Expr

mutual

def landmarks : Expr → List Landmark
  | literal _ _ | error _ => []
  | ident n => [.use n]
  | member _ target dot name => landmarks target ++ .dot dot :: name.toList.map .member
  | call _ callee args _ => landmarks callee ++ landmarksOfAll args
  | app _ function argument => landmarks function ++ landmarks argument
  | neg _ inner | paren _ inner => landmarks inner
  | typed _ inner t => landmarks inner ++ t.landmarks
  | binary _ _ _ lhs rhs => landmarks lhs ++ landmarks rhs
  | conditional _ condition thenBranch elseBranch =>
    landmarks condition ++ (landmarks thenBranch ++
      match elseBranch with | some b => landmarks b | none => [])
  | lambda _ params body => Pattern.landmarksOfAll params ++ landmarks body
  | letIn _ head value body => head.landmarks ++ (landmarks value ++ landmarks body)
  | sequential _ first second => landmarks first ++ landmarks second
  | tuple _ items | list _ items => landmarksOfAll items
  | record _ fields => landmarksOfFields fields

def landmarksOfAll : List Expr → List Landmark
  | [] => []
  | e :: es => landmarks e ++ landmarksOfAll es

def landmarksOfFields : List (Ident × Expr) → List Landmark
  | [] => []
  | (name, e) :: fs => .label name :: (landmarks e ++ landmarksOfFields fs)

end

theorem landmarksOfAll_eq (es : List Expr) : landmarksOfAll es = es.flatMap landmarks := by
  induction es with
  | nil => rfl
  | cons e es ih => rw [landmarksOfAll, ih, List.flatMap_cons]

theorem landmarksOfAll_append (es fs : List Expr) :
    landmarksOfAll (es ++ fs) = landmarksOfAll es ++ landmarksOfAll fs := by
  simp only [landmarksOfAll_eq, List.flatMap_append]

theorem landmarksOfFields_eq (fs : List (Ident × Expr)) :
    landmarksOfFields fs = fs.flatMap fun f => .label f.1 :: f.2.landmarks := by
  induction fs with
  | nil => rfl
  | cons f fs ih => rw [landmarksOfFields, ih, List.flatMap_cons]; rfl

end Expr

def Binding.landmarks (b : Binding) : List Landmark := b.toLetHead.landmarks ++ b.body.landmarks

def TypeBody.landmarks : TypeBody → List Landmark
  | record fields => fields.flatMap fun f => .binding f.1 :: f.2.landmarks
  | abbreviation t => t.landmarks

namespace Decl

mutual

def landmarks : Decl → List Landmark
  | binding _ b => b.landmarks
  | «open» _ path => path.parts.map .label
  | module _ name ds => .binding name :: landmarksOfAll ds
  | type _ name body => .binding name :: body.landmarks
  | directive _ _ | error _ => []
  | expr _ e => e.landmarks

def landmarksOfAll : List Decl → List Landmark
  | [] => []
  | d :: ds => landmarks d ++ landmarksOfAll ds

end

end Decl

/-! What a parser reads -/

theorem Layout.place_sources (text : Text) (line? : Option Nat) (tokens : List (Token × Span)) :
    (place text line? tokens).map LaidToken.source = tokens := by
  induction tokens generalizing line? with
  | nil => rfl
  | cons t ts ih => rw [place, List.map_cons, ih]; rfl

theorem significantTokens_sublist (text : Text) (defines : List String) :
    ((significantTokens text defines).1.map LaidToken.source).Sublist (Token.tokens text) := by
  rw [significantTokens, Layout.place_sources]
  exact Layout.activeTokens_sublist text defines [] (Token.tokens text)

namespace Parted

variable {place : Nat} {xs ys : List LaidToken}

theorem append (h : Parted place (xs ++ ys)) : Parted (lastStop place xs) ys := by
  induction xs generalizing place with
  | nil => exact h
  | cons x xs ih =>
    rw [lastStop_cons]
    exact ih h.2.2.2

theorem ascending (h : Parted place xs) : Ascending place xs := h.ascend

end Parted

/-- What a parser still has to read, and where it stopped reading. -/
structure Place where
  rest : List LaidToken
  stop : Nat

abbrev ParserState.place (s : ParserState) : Place := ⟨s.rest, s.prevEnd⟩

variable {ms ms₁ ms₂ : List Landmark} {p p₁ p₂ p' : Place} {x y : Nat}

/-- From `p` to `p'` a parser reads tokens among which the landmarks `ms` stand, in this order. -/
structure ReadsOff (ms : List Landmark) (p p' : Place) : Prop where
  parted : Parted p.stop p.rest
  read : ∃ read, p.rest = read ++ p'.rest ∧ p'.stop = lastStop p.stop read ∧
    (ms.map Landmark.source).Sublist (read.map LaidToken.source)

namespace Place

/-- Where the next name starts at the earliest. A token that is no name keeps its first byte free. -/
def next (p : Place) : Nat :=
  match p.rest with
  | [] => p.stop + 1
  | t :: _ => if t.token.isIdent then t.span.start else t.span.start + 1

/-- No name stands right behind the last token. -/
def Clear (p : Place) : Prop := 0 < p.stop → p.stop < p.next

/-- What is read ends at `x` or behind it, or a token follows that is no name. -/
def Reaches (p : Place) (x : Nat) : Prop := x ≤ p.stop ∨ x < p.next

theorem stop_le_next (h : Parted p.stop p.rest) : p.stop ≤ p.next := by
  unfold next
  cases hrest : p.rest with
  | nil => exact Nat.le_succ _
  | cons t ts =>
    rw [hrest] at h
    dsimp only
    split
    · exact h.1
    · exact Nat.le_succ_of_le h.1

theorem next_le_of_mem {t : LaidToken} (h : Parted p.stop p.rest) (ht : t ∈ p.rest)
    (hident : t.token.isIdent = true) : p.next ≤ t.span.start := by
  unfold next
  cases hrest : p.rest with
  | nil => rw [hrest] at ht; cases ht
  | cons u us =>
    rw [hrest] at h ht
    dsimp only
    rcases List.mem_cons.mp ht with rfl | ht
    · exact Nat.le_of_eq (if_pos hident)
    · have hstop := (h.2.2.2.ascending.of_mem ht).1
      have hu := h.2.1
      split <;> omega

theorem Reaches.max (hx : p.Reaches x) (hy : p.Reaches y) : p.Reaches (max x y) := by
  unfold Reaches at *
  omega

theorem Reaches.le_next (hp : Parted p.stop p.rest) (hx : p.Reaches x) : x ≤ p.next := by
  have := stop_le_next hp
  unfold Reaches at hx
  omega

theorem Reaches.lt_next (hx : p.Reaches x) (hclear : p.Clear) (hpos : 0 < p.stop) : x < p.next := by
  have := hclear hpos
  unfold Reaches at hx
  omega

theorem reaches_stop (p : Place) : p.Reaches p.stop := .inl (Nat.le_refl _)

theorem clear_of_nil (h : p.rest = []) : p.Clear := by
  intro _
  rw [next, h]
  exact Nat.lt_succ_self _

theorem clear_of_head (hp : Parted p.stop p.rest)
    (h : ∀ t ∈ p.rest.head?, t.lineStart = true ∨ t.token.isIdent = false) : p.Clear := by
  intro hpos
  unfold next
  cases hrest : p.rest with
  | nil => exact Nat.lt_succ_self _
  | cons t ts =>
    rw [hrest] at hp h
    obtain ⟨hle, -, hline, -⟩ := hp
    dsimp only
    rcases h t rfl with ht | ht
    · have := hline ht hpos
      split <;> omega
    · rw [ht]
      exact Nat.lt_succ_of_le hle

end Place

namespace ReadsOff

theorem behind (h : ReadsOff ms p p') : Parted p'.stop p'.rest := by
  obtain ⟨read, hrest, hplace, -⟩ := h.read
  have hparted := h.parted
  rw [hrest] at hparted
  exact hplace ▸ hparted.append

theorem refl (h : Parted p.stop p.rest) : ReadsOff [] p p := ⟨h, [], rfl, rfl, List.nil_sublist _⟩

theorem trans (h₁ : ReadsOff ms₁ p p₁) (h₂ : ReadsOff ms₂ p₁ p₂) : ReadsOff (ms₁ ++ ms₂) p p₂ := by
  obtain ⟨read₁, hrest₁, hplace₁, hsub₁⟩ := h₁.read
  obtain ⟨read₂, hrest₂, hplace₂, hsub₂⟩ := h₂.read
  refine ⟨h₁.parted, read₁ ++ read₂, ?_, ?_, ?_⟩
  · rw [hrest₁, hrest₂, List.append_assoc]
  · rw [hplace₂, hplace₁, lastStop_append]
  · rw [List.map_append, List.map_append]
    exact hsub₁.append hsub₂

theorem before (h₁ : ReadsOff [] p p₁) (h₂ : ReadsOff ms p₁ p₂) : ReadsOff ms p p₂ := h₁.trans h₂

theorem andThen (h₁ : ReadsOff ms p p₁) (h₂ : ReadsOff [] p₁ p₂) : ReadsOff ms p p₂ := by
  have h := h₁.trans h₂
  rwa [List.append_nil] at h

theorem length_le (h : ReadsOff ms p p') : p'.rest.length ≤ p.rest.length := by
  obtain ⟨read, hrest, -, -⟩ := h.read
  simp [hrest]

theorem stop_le (h : ReadsOff ms p p') : p.stop ≤ p'.stop := by
  obtain ⟨read, hrest, hplace, -⟩ := h.read
  have hparted := h.parted.ascending
  rw [hrest] at hparted
  exact hplace ▸ hparted.append.1.le_lastStop

/-- Tokens read only move the place of the next name to the right. -/
theorem next_le (h : ReadsOff ms p p') : p.next ≤ p'.next := by
  obtain ⟨read, hrest, hplace, -⟩ := h.read
  have hbehind := Place.stop_le_next h.behind
  have hparted := h.parted
  cases read with
  | nil => rw [Place.next, Place.next, hrest, hplace]; exact Nat.le_refl _
  | cons t ts =>
    rw [hrest] at hparted
    have hstop := hparted.2.2.2.ascending.append.1.le_lastStop
    rw [hplace, lastStop_cons] at hbehind
    rw [Place.next, hrest, List.cons_append]
    have ht := hparted.2.1
    dsimp only
    split <;> omega

/-- A token read moves the end of what is read behind the place of the next name. -/
theorem next_le_stop (h : ReadsOff ms p p') (hlt : p'.rest.length < p.rest.length) :
    p.next ≤ p'.stop ∧ 0 < p'.stop := by
  obtain ⟨read, hrest, hplace, -⟩ := h.read
  have hparted := h.parted
  cases read with
  | nil => rw [hrest] at hlt; exact absurd hlt (Nat.lt_irrefl _)
  | cons t ts =>
    rw [hrest] at hparted
    have hstop := hparted.2.2.2.ascending.append.1.le_lastStop
    rw [hplace, lastStop_cons, Place.next, hrest, List.cons_append]
    have ht := hparted.2.1
    dsimp only
    split <;> omega

theorem reaches (h : ReadsOff ms p p') (hx : p.Reaches x) : p'.Reaches x := by
  have := h.stop_le
  have := h.next_le
  unfold Place.Reaches at hx ⊢
  omega

theorem within {n : Ident} {m : Landmark} (h : ReadsOff ms p p') (hm : m ∈ ms)
    (hsource : m.source = n.source) : p.next ≤ n.span.start ∧ n.span.stop ≤ p'.stop := by
  obtain ⟨read, hrest, hplace, hsub⟩ := h.read
  obtain ⟨t, ht, htsource⟩ := List.mem_map.mp (hsub.subset (List.mem_map_of_mem hm))
  rw [hsource] at htsource
  obtain ⟨htoken, htspan⟩ := Prod.mk.inj htsource
  have hparted := h.parted
  refine htspan ▸ ⟨Place.next_le_of_mem hparted ?_ (by rw [htoken]; rfl), ?_⟩
  · rw [hrest]
    exact List.mem_append_left _ ht
  · rw [hrest] at hparted
    exact hplace ▸ hparted.ascending.append.1.stop_le_lastStop ht

theorem sublist (h : ReadsOff ms p p') (hsub : ms₁.Sublist ms) : ReadsOff ms₁ p p' := by
  obtain ⟨read, hrest, hplace, hread⟩ := h.read
  exact ⟨h.parted, read, hrest, hplace, (hsub.map _).trans hread⟩

end ReadsOff

namespace ParserState

variable {s : ParserState}

theorem rest_le {s' : ParserState} (h : ReadsOff ms s.place s'.place) :
    s'.rest.length ≤ s.rest.length :=
  h.length_le

theorem clear_of_lineStart (hs : Parted s.prevEnd s.rest) (h : s.current.lineStart = true) :
    s.place.Clear := by
  refine Place.clear_of_head hs fun t ht => .inl ?_
  rwa [current_of_head ht] at h

theorem clear_of_not_ident (hs : Parted s.prevEnd s.rest) (h : s.peek.isIdent = false) :
    s.place.Clear := by
  refine Place.clear_of_head hs fun t ht => .inr ?_
  rwa [peek, current_of_head ht] at h

theorem clear_of_atEnd (h : s.atEnd = true) : s.place.Clear :=
  Place.clear_of_nil (List.isEmpty_iff.mp h)

theorem lineStart_of_isOffside (h : s.isOffside = true) : s.current.lineStart = true := by
  unfold isOffside at h
  split at h
  case isTrue hend => rw [current, List.isEmpty_iff.mp hend]; rfl
  case isFalse =>
    split at h
    case isTrue => cases h
    case isFalse hline =>
      simp only [Bool.or_eq_true, not_or, Bool.not_eq_true', Bool.not_eq_false] at hline
      exact hline.1

theorem clear_of_isOffside (hs : Parted s.prevEnd s.rest) (h : s.isOffside = true) : s.place.Clear :=
  clear_of_lineStart hs (lineStart_of_isOffside h)

/-! Elementary steps -/

theorem atEnd_of_peek {token : Token} (h : s.peek = token) (htoken : token ≠ .eof) :
    s.atEnd = false := by
  refine Bool.eq_false_iff.mpr fun hend => htoken ?_
  rw [← h, peek, current, List.isEmpty_iff.mp hend]
  rfl

theorem length_advance (h : s.atEnd = false) : s.advance.rest.length < s.rest.length := by
  obtain ⟨ts, hrest⟩ := rest_eq_cons h
  rw [advance, hrest]
  exact Nat.lt_succ_self _

theorem errors_advance (s : ParserState) : s.advance.errors = s.errors := by
  unfold advance
  split <;> rfl

theorem readsOff_advance (h : Parted s.prevEnd s.rest) : ReadsOff [] s.place s.advance.place := by
  cases hrest : s.rest with
  | nil => rw [advance, hrest]; exact ReadsOff.refl h
  | cons t ts =>
    refine ⟨h, [t], ?_, ?_, List.nil_sublist _⟩
    · simp [advance, hrest]
    · simp [advance, hrest, lastStop]

theorem start_le_next (h : s.atEnd = false) : s.current.span.start ≤ s.place.next := by
  obtain ⟨ts, hrest⟩ := rest_eq_cons h
  generalize s.current = t at hrest
  simp only [Place.next, hrest]
  split
  · exact Nat.le_refl _
  · exact Nat.le_succ _

theorem prevEnd_le_start (hs : Parted s.prevEnd s.rest) (h : s.atEnd = false) :
    s.prevEnd ≤ s.current.span.start := by
  obtain ⟨ts, hrest⟩ := rest_eq_cons h
  rw [hrest] at hs
  exact hs.1

theorem readsOff_landmark (h : Parted s.prevEnd s.rest) (hend : s.atEnd = false) {m : Landmark}
    (hm : m.source = s.current.source) : ReadsOff [m] s.place s.advance.place := by
  obtain ⟨ts, hrest⟩ := rest_eq_cons hend
  refine ⟨h, [s.current], ?_, ?_, ?_⟩
  · simp [advance, hrest]
  · simp [advance, hrest, lastStop]
  · simp [hm]

@[simp] theorem place_report (s : ParserState) (e : SyntaxError) : (s.report e).place = s.place := by
  unfold report
  split <;> rfl

@[simp] theorem prevEnd_report (s : ParserState) (e : SyntaxError) :
    (s.report e).prevEnd = s.prevEnd :=
  congrArg Place.stop (place_report s e)

theorem readsOff_report (h : Parted s.prevEnd s.rest) (e : SyntaxError) :
    ReadsOff [] s.place (s.report e).place := by
  rw [place_report]
  exact ReadsOff.refl h

end ParserState

namespace Parser

open ParserState

variable {α : Type} {s : ParserState}

theorem eat_readsOff (token : Token) (h : Parted s.prevEnd s.rest) :
    (eat token).Yields s fun _ s' => ReadsOff [] s.place s'.place := by
  rw [yields_eat]
  split
  · exact readsOff_advance h
  · exact ReadsOff.refl h

theorem when_place (b : Bool) {p : Parser Unit}
    (h : p.Yields s fun _ s' => s'.place = s.place) :
    (when b p).Yields s fun _ s' => s'.place = s.place := by
  cases b with
  | false => exact rfl
  | true => exact h

theorem report_place (e : SyntaxError) (s : ParserState) :
    (report e).Yields s fun _ s' => s'.place = s.place :=
  place_report s e

theorem missing_place (what : String) (s : ParserState) :
    (missing what).Yields s fun _ s' => s'.place = s.place :=
  place_report s _

theorem unexpected_place (s : ParserState) : unexpected.Yields s fun _ s' => s'.place = s.place := by
  simp only [unexpected, yields_bind, yields_get]
  split <;> exact place_report s _

theorem yields_ifStuck (left : Nat) (p : Parser Unit) (s : ParserState)
    (Q : Unit → ParserState → Prop) :
    Yields (ifStuck left p) s Q ↔ if s.rest.length = left then p.Yields s Q else Q () s := by
  simp only [ifStuck, yields_bind, yields_get]
  split <;> exact Iff.rfl

theorem nested_yields {p : Parser α} {Q : α → ParserState → Prop}
    (hQ : ∀ a s' n, Q a s' → Q a { s' with nesting := n })
    (hp : p.Yields { s with nesting := s.nesting + 1 } Q) : (nested p).Yields s Q := by
  simp only [nested, yields_bind, yields_modify, yields_pure]
  exact hp.mono fun a s' h => hQ a s' _ h

theorem withOffside_yields {p : Parser α} {column : Nat} {Q : α → ParserState → Prop}
    (hQ : ∀ a s' n, Q a s' → Q a { s' with offside := n })
    (hp : p.Yields { s with offside := column } Q) : (withOffside column p).Yields s Q := by
  simp only [withOffside, yields_bind, yields_get, yields_modify, yields_pure]
  exact hp.mono fun a s' h => hQ a s' _ h

theorem yields_expect (token : Token) (what : String) (s : ParserState)
    (Q : Option Span → ParserState → Prop) :
    Yields (expect token what) s Q ↔
      if s.peek = token then Q (some s.current.span) s.advance
      else (missing what).Yields s fun _ s' => Q none s' := by
  simp only [expect, yields_bind]
  rw [yields_eat]
  split <;> exact Iff.rfl

/-- A name, if there is one, is the next token. -/
theorem ident?_readsOff (s : ParserState) :
    ident?.Yields s fun found s' =>
      (∀ n ∈ found, s.current.source = n.source ∧ s.atEnd = false ∧ s' = s.advance) ∧
        (found = none → s' = s ∧ s.peek.isIdent = false) := by
  simp only [ident?, yields_bind, yields_get]
  split
  case h_1 text htoken =>
    refine ⟨fun n hn => ?_, by simp⟩
    obtain rfl := Option.some.inj hn
    exact ⟨Prod.ext htoken rfl, atEnd_of_peek htoken (by simp), rfl⟩
  case h_2 hnot =>
    refine ⟨by simp, fun _ => ⟨rfl, ?_⟩⟩
    cases hpeek : s.peek with
    | ident text => exact absurd hpeek (hnot text)
    | _ => rfl

theorem ident?_landmark (h : Parted s.prevEnd s.rest) (part : Ident → Landmark)
    (hpart : ∀ n, (part n).source = n.source) :
    ident?.Yields s fun found s' =>
      ReadsOff (found.toList.map part) s.place s'.place ∧
        (found.isSome = true → s'.rest.length < s.rest.length) ∧
        (found = none → s' = s ∧ s.peek.isIdent = false) := by
  refine (ident?_readsOff s).mono fun found s' hfound => ?_
  cases found with
  | none =>
    obtain ⟨rfl, hident⟩ := hfound.2 rfl
    exact ⟨ReadsOff.refl h, nofun, fun _ => ⟨rfl, hident⟩⟩
  | some n =>
    obtain ⟨hsource, hend, rfl⟩ := hfound.1 n rfl
    refine ⟨readsOff_landmark h hend (by rw [hpart, hsource]), fun _ => length_advance hend, nofun⟩

theorem segments_sublist (ts : List LaidToken) :
    ((segments ts).map Ident.source).Sublist
      ((ts.take (2 * (segments ts).length)).map LaidToken.source) := by
  fun_induction segments ts with
  | case1 dotSpan dotColumn dotStart text span column lineStart ts ih =>
    rw [List.length_cons, Nat.mul_add, List.take_succ_cons, List.take_succ_cons]
    exact .cons _ (.cons_cons _ ih)
  | case2 => exact List.nil_sublist _

theorem longIdent?_readsOff (h : Parted s.prevEnd s.rest) (part : Ident → Landmark)
    (hpart : ∀ n, (part n).source = n.source) :
    longIdent?.Yields s fun found s' =>
      ReadsOff ((found.map fun n => n.parts.map part).getD []) s.place s'.place ∧
        (found.isSome = true → s'.rest.length < s.rest.length) ∧
        (found = none → s' = s ∧ s.peek.isIdent = false) := by
  simp only [longIdent?, yields_bind]
  refine (ident?_landmark h part hpart).mono fun head s₁ h₁ => ?_
  cases head with
  | none =>
    rw [yields_pure]
    exact ⟨h₁.1, by simp, fun _ => h₁.2.2 rfl⟩
  | some head =>
    simp only [yields_bind, yields_get, yields_modify, yields_pure]
    obtain ⟨read, heq, -, hstop⟩ := segments_read s₁.rest
    have htake : read = s₁.rest.take (2 * (segments s₁.rest).length) :=
      List.append_cancel_right (heq.symm.trans (List.take_append_drop _ _).symm)
    refine ⟨h₁.1.trans ⟨h₁.1.behind, read, heq, (hstop _).symm, ?_⟩, fun _ => ?_, by simp⟩
    · have hsource : ((segments s₁.rest).map part).map Landmark.source =
          (segments s₁.rest).map Ident.source := by
        rw [List.map_map]
        exact List.map_congr_left fun n _ => hpart n
      change (((segments s₁.rest).map part).map Landmark.source).Sublist _
      rw [hsource, htake]
      exact segments_sublist _
    · have hlt := h₁.2.1 rfl
      simp only [List.length_drop]
      omega

theorem skipWhile_readsOff (p : LaidToken → Bool) (h : Parted s.prevEnd s.rest) :
    (skipWhile p).Yields s fun _ s' =>
      ReadsOff [] s.place s'.place ∧ ∀ t ∈ s'.rest.head?, p t = false := by
  simp only [skipWhile, yields_modify]
  refine ⟨⟨h, s.rest.takeWhile p, List.takeWhile_append_dropWhile.symm, rfl, List.nil_sublist _⟩, ?_⟩
  intro t ht
  have hhead := List.head?_dropWhile_not p s.rest
  rw [Option.mem_def.mp ht] at hhead
  simpa using hhead

/-- Behind a stray rest of a line the next token is no name or starts a line. -/
theorem skipStray_readsOff (h : Parted s.prevEnd s.rest) :
    skipStray.Yields s fun _ s' => ReadsOff [] s.place s'.place ∧ s'.place.Clear := by
  simp only [skipStray, yields_bind, yields_get]
  split
  case isTrue hstop =>
    rw [yields_pure]
    refine ⟨ReadsOff.refl h, ?_⟩
    simp only [Bool.or_eq_true] at hstop
    rcases hstop with (hend | hline) | houtside
    · exact clear_of_atEnd hend
    · exact clear_of_lineStart h hline
    · refine clear_of_not_ident h ?_
      unfold belongsOutside at houtside
      split at houtside <;> simp_all [Token.isIdent]
  case isFalse =>
    simp only [yields_bind, yields_error]
    have h₁ := readsOff_report h
      ⟨.unexpectedToken s.peek.text, s.current.span, none, none⟩
    refine (skipWhile_readsOff _ h₁.behind).mono fun _ s' h' => ⟨h₁.before h'.1, ?_⟩
    refine Place.clear_of_head h'.1.behind fun t ht => .inl ?_
    simpa using h'.2 t ht

theorem prevEnd_advance (h : s.atEnd = false) : s.advance.prevEnd = s.current.span.stop := by
  obtain ⟨ts, hrest⟩ := rest_eq_cons h
  rw [advance, hrest]

theorem closing_readsOff (close : Punct) (e : SyntaxError) (h : Parted s.prevEnd s.rest) :
    (closing close e).Yields s fun stop s' => ReadsOff [] s.place s'.place ∧ stop = s'.prevEnd := by
  simp only [closing, yields_bind]
  rw [yields_eat]
  split
  case isTrue hclose =>
    exact ⟨readsOff_advance h, (prevEnd_advance (atEnd_of_peek hclose (by simp))).symm⟩
  case isFalse => exact ⟨readsOff_report h e, rfl⟩

end Parser
end ScriptAnalyzer

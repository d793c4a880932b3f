import ScriptAnalyzer.Proofs.Syntax.NamePlaces

/-!
In a text that is read without errors each part of the tree lies inside the one that it is a part of. Here
this is shown of types and patterns, and how a parser follows its tokens.
-/

namespace ScriptAnalyzer

variable {m m' u v w : Nat}

namespace Span

variable {s t r : Span}

theorem contains_iff : s.contains t = true ↔ s.start ≤ t.start ∧ t.stop ≤ s.stop := by
  simp [contains]

/-- The span of something that was read from `m` on, and not beyond `u`. -/
structure Between (m u : Nat) (s : Span) : Prop where
  after : m ≤ s.start
  ordered : s.start ≤ s.stop
  upTo : s.stop ≤ u

namespace Between

theorem weaken (h : s.Between m u) (hm : m' ≤ m) (hu : u ≤ w) : s.Between m' w :=
  ⟨Nat.le_trans hm h.after, h.ordered, Nat.le_trans h.upTo hu⟩

theorem le (h : s.Between m u) : m ≤ u := Nat.le_trans h.after (Nat.le_trans h.ordered h.upTo)

theorem merge (hs : s.Between m u) (ht : t.Between m u) : (s.merge t).Between m u where
  after := Nat.le_min.mpr ⟨hs.after, ht.after⟩
  ordered := Nat.le_trans (Nat.min_le_left _ _) (Nat.le_trans hs.ordered (Nat.le_max_left _ _))
  upTo := Nat.max_le.mpr ⟨hs.upTo, ht.upTo⟩

theorem merge_eq (hs : s.Between m u) (huv : u ≤ v) (ht : t.Between v w) : s.merge t = ⟨s.start, t.stop⟩ := by
  have hbehind := Nat.le_trans hs.upTo (Nat.le_trans huv ht.after)
  rw [Span.merge, Nat.min_eq_left (Nat.le_trans hs.ordered hbehind),
    Nat.max_eq_right (Nat.le_trans hbehind ht.ordered)]

theorem merge_inside (h : t.Between s.start s.stop) : s.merge t = s := by
  rw [Span.merge, Nat.min_eq_left h.after, Nat.max_eq_left h.upTo]

theorem contained (h : s.Between m u) : Span.contains ⟨m, u⟩ s = true := contains_iff.mpr ⟨h.after, h.upTo⟩

end Between

theorem contains_self (s : Span) : s.contains s = true := contains_iff.mpr ⟨Nat.le_refl _, Nat.le_refl _⟩

theorem contains_merge_left (s t : Span) : (s.merge t).contains s = true :=
  contains_iff.mpr ⟨Nat.min_le_left _ _, Nat.le_max_left _ _⟩

theorem contains_merge_right (s t : Span) : (s.merge t).contains t = true :=
  contains_iff.mpr ⟨Nat.min_le_right _ _, Nat.le_max_right _ _⟩

theorem contains_trans (h : s.contains t = true) (h' : t.contains r = true) : s.contains r = true := by
  rw [contains_iff] at *
  omega

/-- The spans of things that were read one behind the other, from `m` on and not beyond `u`. -/
structure Row (m u : Nat) (spans : List Span) : Prop where
  between : ∀ s ∈ spans, s.Between m u
  apart : spans.Pairwise fun s t => s.stop ≤ t.start

namespace Row

variable {spans : List Span}

theorem nil : Row m u [] := ⟨nofun, .nil⟩

theorem cons (hs : s.Between m u) (huv : u ≤ v) (huw : u ≤ w) (h : Row v w spans) :
    Row m w (s :: spans) where
  between := List.forall_mem_cons.mpr ⟨hs.weaken (Nat.le_refl _) huw, fun t ht =>
    (h.between t ht).weaken (Nat.le_trans hs.le huv) (Nat.le_refl _)⟩
  apart := .cons (fun t ht => Nat.le_trans hs.upTo (Nat.le_trans huv (h.between t ht).after)) h.apart

theorem weaken (h : Row m u spans) (hm : m' ≤ m) (hu : u ≤ w) : Row m' w spans :=
  ⟨fun s hs => (h.between s hs).weaken hm hu, h.apart⟩

theorem sublist {spans' : List Span} (h : Row m u spans) (hsub : spans'.Sublist spans) : Row m u spans' :=
  ⟨fun s hs => h.between s (hsub.subset hs), h.apart.sublist hsub⟩

theorem append {spans' : List Span} (h : Row m u spans) (huv : u ≤ v) (hmv : m ≤ v) (huw : u ≤ w)
    (h' : Row v w spans') : Row m w (spans ++ spans') where
  between := List.forall_mem_append.mpr ⟨fun s hs => (h.between s hs).weaken (Nat.le_refl _) huw,
    fun s hs => (h'.between s hs).weaken hmv (Nat.le_refl _)⟩
  apart := List.pairwise_append.mpr ⟨h.apart, h'.apart, fun s hs t ht =>
    Nat.le_trans (h.between s hs).upTo (Nat.le_trans huv (h'.between t ht).after)⟩

theorem singleton (hs : s.Between m u) : Row m u [s] := cons hs (Nat.le_refl u) (Nat.le_refl u) nil

theorem pair (hs : s.Between m u) (huv : u ≤ v) (huw : u ≤ w) (ht : t.Between v w) : Row m w [s, t] :=
  cons hs huv huw (singleton ht)

theorem last_between (h : Row m u spans) (hlast : t ∈ spans.getLast?) : t.Between m u :=
  h.between t (List.mem_of_getLast? hlast)

/-- The last span ends behind all others. -/
theorem stop_le_last (h : Row m u spans) (hlast : t ∈ spans.getLast?) : ∀ s ∈ spans, s.stop ≤ t.stop := by
  obtain ⟨before, rfl⟩ := List.getLast?_eq_some_iff.mp hlast
  obtain ⟨-, -, hbefore⟩ := List.pairwise_append.mp h.apart
  refine List.forall_mem_append.mpr ⟨fun s hs => ?_, List.forall_mem_singleton.mpr (Nat.le_refl _)⟩
  exact Nat.le_trans (hbefore s hs t (List.mem_singleton_self t)) (h.last_between hlast).ordered

/-- The first span and the last one hold all between them. -/
theorem merge (hs : s.Between m u) (huv : u ≤ v) (h : Row v w spans) (hlast : t ∈ spans.getLast?) :
    (s.merge t).Between m w ∧ Row (s.merge t).start (s.merge t).stop (s :: spans) := by
  have ht := h.last_between hlast
  have hst := hs.ordered
  have hbehind := Nat.le_trans hs.upTo (Nat.le_trans huv ht.after)
  have hspan : s.merge t = ⟨s.start, t.stop⟩ := hs.merge_eq huv ht
  refine ⟨(hs.weaken (Nat.le_refl _) (Nat.le_trans huv ht.le)).merge
    (ht.weaken (Nat.le_trans hs.le huv) (Nat.le_refl _)), ?_, (cons hs huv (Nat.le_trans huv ht.le) h).apart⟩
  rw [hspan]
  refine List.forall_mem_cons.mpr ⟨⟨Nat.le_refl _, hst, ?_⟩, fun r hr => ⟨?_, (h.between r hr).ordered, ?_⟩⟩
  · exact Nat.le_trans hbehind ht.ordered
  · exact Nat.le_trans hst (Nat.le_trans hs.upTo (Nat.le_trans huv (h.between r hr).after))
  · exact h.stop_le_last hlast r hr

end Row

end Span

/-- Every type in the type lies inside the one that it is a part of. -/
inductive TypeExpr.Nested : TypeExpr → Prop
  | named {s : Span} {n : LongIdent} : s.contains n.span = true → Nested (.named s n)
  | var {s : Span} {n : Ident} : s.contains n.span = true → Nested (.var s n)
  | app {s : Span} {argument : TypeExpr} {ctor : LongIdent} : s.contains argument.span = true →
    s.contains ctor.span = true → Nested argument → Nested (.app s argument ctor)
  | array {s : Span} {element : TypeExpr} : s.contains element.span = true → Nested element →
    Nested (.array s element)
  | function {s : Span} {domain codomain : TypeExpr} : s.contains domain.span = true →
    s.contains codomain.span = true → Nested domain → Nested codomain → Nested (.function s domain codomain)
  | tuple {s : Span} {items : List TypeExpr} : (∀ t ∈ items, s.contains t.span = true) →
    (∀ t ∈ items, Nested t) → Nested (.tuple s items)
  | error {s : Span} : Nested (.error s)

/-- Every pattern and type in the pattern lies inside the one that it is a part of. -/
inductive Pattern.Nested : Pattern → Prop
  | named {s : Span} {n : Ident} : s.contains n.span = true → Nested (.named s n)
  | wildcard {s : Span} : Nested (.wildcard s)
  | unit {s : Span} : Nested (.unit s)
  | tuple {s : Span} {items : List Pattern} : (∀ p ∈ items, s.contains p.span = true) →
    (∀ p ∈ items, Nested p) → Nested (.tuple s items)
  | typed {s : Span} {inner : Pattern} {t : TypeExpr} : s.contains inner.span = true →
    s.contains t.span = true → Nested inner → t.Nested → Nested (.typed s inner t)
  | error {s : Span} : Nested (.error s)

theorem TypeExpr.Nested.withSpan {t : TypeExpr} (h : t.Nested) {s : Span} (hs : s.contains t.span = true) :
    (t.withSpan s).Nested := by
  have hin {r : Span} (hr : t.span.contains r = true) : s.contains r = true := Span.contains_trans hs hr
  cases h with
  | named hn => exact .named (hin hn)
  | var hn => exact .var (hin hn)
  | app ha hc hargument => exact .app (hin ha) (hin hc) hargument
  | array he helement => exact .array (hin he) helement
  | function hd hc hdomain hcodomain => exact .function (hin hd) (hin hc) hdomain hcodomain
  | tuple hitems hnested => exact .tuple (fun t ht => hin (hitems t ht)) hnested
  | error => exact .error

theorem Pattern.Nested.withSpan {p : Pattern} (h : p.Nested) {s : Span} (hs : s.contains p.span = true) :
    (p.withSpan s).Nested := by
  have hin {r : Span} (hr : p.span.contains r = true) : s.contains r = true := Span.contains_trans hs hr
  cases h with
  | named hn => exact .named (hin hn)
  | wildcard => exact .wildcard
  | unit => exact .unit
  | tuple hitems hnested => exact .tuple (fun p hp => hin (hitems p hp)) hnested
  | typed hi ht hinner htype => exact .typed (hin hi) (hin ht) hinner htype
  | error => exact .error

/-- A type that was read from `m` on, and not beyond `u`. -/
structure TypeExpr.Sits (m u : Nat) (t : TypeExpr) : Prop where
  between : t.span.Between m u
  nested : t.Nested

structure Pattern.Sits (m u : Nat) (p : Pattern) : Prop where
  between : p.span.Between m u
  nested : p.Nested

theorem TypeExpr.Sits.weaken {t : TypeExpr} (h : t.Sits m u) (hm : m' ≤ m) (hu : u ≤ w) : t.Sits m' w :=
  ⟨h.between.weaken hm hu, h.nested⟩

theorem Pattern.Sits.weaken {p : Pattern} (h : p.Sits m u) (hm : m' ≤ m) (hu : u ≤ w) : p.Sits m' w :=
  ⟨h.between.weaken hm hu, h.nested⟩

theorem TypeExpr.span_withSpan (t : TypeExpr) (s : Span) : (t.withSpan s).span = s := by cases t <;> rfl

theorem Pattern.span_withSpan (p : Pattern) (s : Span) : (p.withSpan s).span = s := by cases p <;> rfl

/-! The places of a parser -/

/-- Where the next token starts; behind the last one, where it ends. -/
def Place.front (p : Place) : Nat := (p.rest.head?.map (·.span.start)).getD p.stop

theorem Place.stop_le_front {p : Place} (h : Parted p.stop p.rest) : p.stop ≤ p.front := by
  unfold front
  cases hrest : p.rest with
  | nil => exact Nat.le_refl _
  | cons t ts =>
    rw [hrest] at h
    exact h.1

section

variable {ms : List Landmark} {p p' : Place}

theorem ReadsOff.front_le_stop (h : ReadsOff ms p p') (hlt : p'.rest.length < p.rest.length) :
    p.front ≤ p'.stop := by
  obtain ⟨read, hrest, hstop, -⟩ := h.read
  have hparted := h.parted
  cases read with
  | nil => rw [hrest] at hlt; exact absurd hlt (Nat.lt_irrefl _)
  | cons t read =>
    rw [hrest] at hparted
    rw [lastStop_cons] at hstop
    have hle := hparted.2.2.2.ascending.append.1.le_lastStop
    have hlt := hparted.2.1
    rw [Place.front, hrest]
    change t.span.start ≤ _
    omega

theorem ReadsOff.front_le (h : ReadsOff ms p p') : p.front ≤ p'.front := by
  rcases Nat.lt_or_ge p'.rest.length p.rest.length with hlt | hge
  · exact Nat.le_trans (h.front_le_stop hlt) (Place.stop_le_front h.behind)
  · obtain ⟨read, hrest, hstop, -⟩ := h.read
    rw [hrest, List.length_append] at hge
    obtain rfl : read = [] := List.eq_nil_of_length_eq_zero (by omega)
    rw [Place.front, Place.front, hrest, hstop]
    exact Nat.le_refl _

theorem ReadsOff.between (h : ReadsOff ms p p') {m : Landmark} (hm : m ∈ ms) :
    m.source.2.Between p.front p'.stop := by
  obtain ⟨read, hrest, hstop, hsub⟩ := h.read
  obtain ⟨t, ht, hsource⟩ := List.mem_map.mp (hsub.subset (List.mem_map_of_mem hm))
  have hspan : m.source.2 = t.span := congrArg Prod.snd hsource.symm
  have hascending := h.parted.ascending
  rw [hrest] at hascending
  have hread := hascending.append.1
  rw [hspan, hstop]
  refine ⟨?_, Nat.le_of_lt (hread.of_mem ht).2, hread.stop_le_lastStop ht⟩
  cases read with
  | nil => cases ht
  | cons r read =>
    rw [Place.front, hrest]
    rcases List.mem_cons.mp ht with rfl | ht
    · exact Nat.le_refl _
    · exact Nat.le_trans (Nat.le_of_lt hread.2.1) (Span.Ascend.of_mem hread.2.2 (List.mem_map_of_mem ht)).1

end

namespace ParserState

variable {s s₁ s' : ParserState}

theorem stop_le_front (h : Parted s.prevEnd s.rest) : s.prevEnd ≤ s.place.front :=
  Place.stop_le_front (p := s.place) h

abbrev front (s : ParserState) : Nat := s.place.front

/-- Tokens are read and errors are added. -/
structure Grows (s s' : ParserState) : Prop where
  reads : ReadsOff [] s.place s'.place
  errors : s.errors <+: s'.errors

namespace Grows

theorem refl (h : Parted s.prevEnd s.rest) : s.Grows s := ⟨.refl h, List.prefix_rfl⟩

theorem trans (h : s.Grows s₁) (h' : s₁.Grows s') : s.Grows s' :=
  ⟨h.reads.trans h'.reads, h.errors.trans h'.errors⟩

theorem parted (h : s.Grows s') : Parted s'.prevEnd s'.rest := h.reads.behind

theorem stop_le (h : s.Grows s') : s.prevEnd ≤ s'.prevEnd := h.reads.stop_le

theorem front_le (h : s.Grows s') : s.front ≤ s'.front := h.reads.front_le

theorem clean (h : s.Grows s') (hclean : s'.errors = []) : s.errors = [] :=
  List.prefix_nil.mp (hclean ▸ h.errors)

theorem advance (h : Parted s.prevEnd s.rest) : s.Grows s.advance :=
  ⟨readsOff_advance h, errors_advance s ▸ List.prefix_rfl⟩

theorem report (h : Parted s.prevEnd s.rest) (e : SyntaxError) : s.Grows (s.report e) :=
  ⟨readsOff_report h e, (errors_report s e).1⟩

end Grows

theorem front_eq (hend : s.atEnd = false) : s.front = s.current.span.start := by
  obtain ⟨ts, hrest⟩ := rest_eq_cons hend
  rw [front, place, Place.front, hrest]
  rfl

theorem start_lt_stop (h : Parted s.prevEnd s.rest) (hend : s.atEnd = false) :
    s.current.span.start < s.current.span.stop := by
  obtain ⟨ts, hrest⟩ := rest_eq_cons hend
  rw [hrest] at h
  exact h.2.1

end ParserState

namespace Parser

open ParserState

variable {α β : Type} {p : Parser α} {f : α → Parser β} {P : α → Nat → Prop} {Q : β → Nat → Prop}
variable {s s' : ParserState}

/-- The parser follows its tokens, and if there is no error in the end, then `Q` holds of the result and
the place where the parser stops. -/
def NestsAt (s : ParserState) (p : Parser α) (Q : α → Nat → Prop) : Prop :=
  p.Yields s fun a s' => s.Grows s' ∧ (s'.errors = [] → Q a s'.prevEnd)

/-- The same wherever the next token starts at `m` or behind it. -/
def Nests (m : Nat) (p : Parser α) (Q : α → Nat → Prop) : Prop :=
  ∀ s, Parted s.prevEnd s.rest → m ≤ s.front → NestsAt s p Q

/-- What follows stands behind what was read, and behind `m` like that. -/
theorem NestsAt.bind (hp : NestsAt s p P) (hm : m ≤ s.front)
    (hf : ∀ a u v, u ≤ v → m ≤ v → Nests v (f a) fun b w => P a u → u ≤ w → Q b w) :
    NestsAt s (p >>= f) Q := by
  rw [NestsAt, yields_bind]
  refine Yields.mono hp fun a s₁ h₁ => ?_
  have hstop := stop_le_front h₁.1.parted
  have hnests := hf a s₁.prevEnd s₁.front hstop (Nat.le_trans hm h₁.1.front_le)
  refine (hnests s₁ h₁.1.parted (Nat.le_refl _)).mono fun b s₂ h₂ => ⟨h₁.1.trans h₂.1, fun hclean => ?_⟩
  exact h₂.2 hclean (h₁.2 (h₂.1.clean hclean)) h₂.1.stop_le

theorem NestsAt.map {g : α → β} (hp : NestsAt s p P) (h : ∀ a u, P a u → Q (g a) u) :
    NestsAt s (do let a ← p; return g a) Q := by
  rw [NestsAt, yields_bind]
  exact Yields.mono hp fun a _ h' => ⟨h'.1, fun hclean => h a _ (h'.2 hclean)⟩

namespace Nests

theorem bind (hp : Nests m p P)
    (hf : ∀ a u v, u ≤ v → m ≤ v → Nests v (f a) fun b w => P a u → u ≤ w → Q b w) : Nests m (p >>= f) Q :=
  fun s hs hm => (hp s hs hm).bind hm hf

/-- A parser that is run for its effect. -/
theorem next (hp : Nests m p P) (hf : ∀ a v, m ≤ v → Nests v (f a) Q) : Nests m (p >>= f) Q :=
  hp.bind fun a _ v _ hv s hs hm => (hf a v hv s hs hm).mono fun _ _ h => ⟨h.1, fun hclean _ _ => h.2 hclean⟩

theorem imp {R : α → Nat → Prop} (hp : Nests m p P) (h : ∀ a u, P a u → R a u) : Nests m p R :=
  fun s hs hm => (hp s hs hm).mono fun a _ h' => ⟨h'.1, fun hclean => h a _ (h'.2 hclean)⟩

theorem weaken (hp : Nests m' p P) (hm : m' ≤ m) : Nests m p P :=
  fun s hs hs' => hp s hs (Nat.le_trans hm hs')

/-- The same where the order of the two parts does not matter. -/
theorem along (hp : Nests m p P) (hf : ∀ a u, Nests m (f a) fun b w => P a u → u ≤ w → Q b w) :
    Nests m (p >>= f) Q :=
  hp.bind fun a u _ _ hv => (hf a u).weaken hv

theorem past (hp : Nests m p P) (hf : ∀ a, Nests m (f a) Q) : Nests m (p >>= f) Q :=
  hp.next fun a _ hv => (hf a).weaken hv

theorem pure {a : α} (h : ∀ u, P a u) : Nests m (pure a) P := fun _ hs _ => ⟨.refl hs, fun _ => h _⟩

theorem ite {c : Prop} [Decidable c] {q : Parser α} (hp : c → Nests m p P) (hq : ¬c → Nests m q P) :
    Nests m (if c then p else q) P := by
  split
  case isTrue h => exact hp h
  case isFalse h => exact hq h

theorem read {f : ParserState → Parser β} (hf : ∀ s, Nests m (f s) Q) : Nests m (get >>= f) Q :=
  fun s => hf s s

theorem getBind {f : ParserState → Parser β}
    (hf : ∀ s, Parted s.prevEnd s.rest → m ≤ s.front → NestsAt s (f s) Q) : Nests m (get >>= f) Q :=
  hf

theorem modify {h : ParserState → ParserState} (hplace : ∀ s, (h s).place = s.place)
    (herrors : ∀ s, (h s).errors = s.errors) : Nests m (modify h) fun _ _ => True := by
  intro s hs _
  have hreads : ReadsOff [] s.place (h s).place := by
    rw [hplace]
    exact .refl hs
  exact ⟨⟨hreads, (herrors s).symm ▸ List.prefix_rfl⟩, fun _ => trivial⟩

theorem map {g : α → β} (hp : Nests m p P) (h : ∀ a u, P a u → Q (g a) u) :
    Nests m (do let a ← p; return g a) Q :=
  fun s hs hm => NestsAt.map (hp s hs hm) h

/-- Where an error is reported there is nothing to show. -/
theorem reported (hp : Nests m p fun _ _ => False) (hf : ∀ a v, Nests v (f a) fun _ _ => True) :
    Nests m (p >>= f) Q :=
  hp.bind fun a _ v _ _ => (hf a v).imp fun _ _ _ hfalse => hfalse.elim

end Nests

/-- A token is read, and what follows stands behind it. -/
theorem bump_nests {f : LaidToken → Parser β} (hs : Parted s.prevEnd s.rest) (hend : s.atEnd = false)
    (hm : m ≤ s.front)
    (hf : s.current.span.Between m s.current.span.stop →
      Nests s.current.span.stop (f s.current) fun b w => s.current.span.stop ≤ w → Q b w) :
    NestsAt s (bump >>= f) Q := by
  have hgrows := Grows.advance hs
  have hstop : s.advance.prevEnd = s.current.span.stop := prevEnd_advance hend
  have hfront := stop_le_front hgrows.parted
  rw [front_eq hend] at hm
  rw [NestsAt, yields_bind, yields_bump]
  have htoken : s.current.span.Between m s.current.span.stop :=
    ⟨hm, Nat.le_of_lt (start_lt_stop hs hend), Nat.le_refl _⟩
  refine (hf htoken s.advance hgrows.parted ?_).mono fun b s' h => ?_
  · exact Nat.le_trans (Nat.le_of_eq hstop.symm) hfront
  · exact ⟨hgrows.trans h.1, fun hclean => h.2 hclean (hstop ▸ h.1.stop_le)⟩

theorem skip_nests {p : Parser β} (hs : Parted s.prevEnd s.rest) (hend : s.atEnd = false)
    (hm : m ≤ s.front)
    (hp : s.current.span.Between m s.current.span.stop →
      Nests s.current.span.stop p fun b w => s.current.span.stop ≤ w → Q b w) :
    NestsAt s (do skip; p) Q :=
  bump_nests (f := fun _ => p) hs hend hm hp

theorem NestsAt.pure {a : β} (hs : Parted s.prevEnd s.rest) (h : Q a s.prevEnd) :
    NestsAt s (pure a) Q :=
  ⟨.refl hs, fun _ => h⟩

theorem NestsAt.ite {c : Prop} [Decidable c] {p q : Parser β} (hp : c → NestsAt s p Q)
    (hq : ¬c → NestsAt s q Q) : NestsAt s (if c then p else q) Q := by
  split
  case isTrue h => exact hp h
  case isFalse h => exact hq h

theorem NestsAt.skip {p : Parser β} (hs : Parted s.prevEnd s.rest) (hp : NestsAt s.advance p Q) :
    NestsAt s (do skip; p) Q := by
  rw [NestsAt, Parser.skip, yields_bind, yields_modify]
  exact hp.mono fun b s' h => ⟨(Grows.advance hs).trans h.1, h.2⟩

/-! Elementary steps -/

theorem report_nests (e : SyntaxError) : Nests m (report e) fun _ _ => False := by
  intro s hs _
  refine ⟨.report hs e, fun hclean => ?_⟩
  obtain ⟨e', he', -⟩ := (errors_report s e).2
  rw [show (s.report e).errors = [] from hclean] at he'
  cases he'

theorem error_nests (cause : SyntaxError.Cause) (span : Span) : Nests m (error cause span) fun _ _ => False :=
  report_nests _

theorem skipped_nests : Nests m skip fun _ _ => True := fun _ hs _ => ⟨.advance hs, fun _ => trivial⟩

theorem skipWhile_nests (q : LaidToken → Bool) : Nests m (skipWhile q) fun _ _ => True :=
  fun _ hs _ => ⟨⟨(skipWhile_readsOff q hs).1, List.prefix_rfl⟩, fun _ => trivial⟩

theorem setAnchor_nests : Nests m setAnchor fun _ _ => True := .modify (fun _ => rfl) fun _ => rfl

theorem eat_nests (token : Token) (htoken : token ≠ .eof) :
    Nests m (eat token) fun found u => ∀ span ∈ found, span.Between m u := by
  intro s hs hm
  rw [NestsAt, yields_eat]
  split
  case isTrue h =>
    have hend := atEnd_of_peek h htoken
    have hstop : s.advance.prevEnd = s.current.span.stop := prevEnd_advance hend
    refine ⟨.advance hs, fun _ span hspan => ?_⟩
    obtain rfl := Option.mem_some.mp hspan
    rw [front_eq hend] at hm
    exact ⟨hm, Nat.le_of_lt (start_lt_stop hs hend), Nat.le_of_eq hstop.symm⟩
  case isFalse => exact ⟨.refl hs, fun _ => nofun⟩

/-- The token that ends a construct, and what is read without it. -/
theorem ended_nests (token : Token) (htoken : token ≠ .eof) {f : Option Span → Parser β} {b : Span → β}
    (hsome : ∀ span, f (some span) = pure (b span)) (hb : ∀ span : Span, span.Between m span.stop → Q (b span) span.stop)
    (hnone : Nests m (f none) Q) : Nests m (eat token >>= f) Q := by
  intro s hs hm
  rw [NestsAt, yields_bind, yields_eat]
  split
  case isTrue h =>
    have hend := atEnd_of_peek h htoken
    rw [front_eq hend] at hm
    rw [hsome, yields_pure]
    refine ⟨.advance hs, fun _ => ?_⟩
    rw [prevEnd_advance hend]
    exact hb _ ⟨hm, Nat.le_of_lt (start_lt_stop hs hend), Nat.le_refl _⟩
  case isFalse => exact hnone s hs hm

theorem unexpected_nests : Nests m unexpected fun _ _ => False :=
  .getBind fun s hs hm => Nests.ite (fun _ => error_nests _ _) (fun _ => error_nests _ _) s hs hm

theorem missing_nests (what : String) : Nests m (missing what) fun _ _ => False :=
  .getBind fun s hs hm => error_nests _ _ s hs hm

theorem reject_nests : Nests m reject fun _ _ => False :=
  .reported unexpected_nests fun _ _ => skipped_nests

theorem when_nests {b : Bool} {q : Parser Unit} (hq : Nests m q fun _ _ => False) :
    Nests m (when b q) fun _ _ => b = false := by
  cases b with
  | true => exact hq.imp fun _ _ => False.elim
  | false => exact .pure fun _ => rfl

theorem ifStuck_nests {left : Nat} {q : Parser Unit} (hq : ∀ m, Nests m q fun _ _ => True) :
    Nests m (ifStuck left q) fun _ _ => True :=
  .getBind fun s hs hm => Nests.ite (fun _ => hq m) (fun _ => .pure fun _ => trivial) s hs hm

theorem expect_nests (token : Token) (htoken : token ≠ .eof) (what : String) :
    Nests m (expect token what) fun found _ => found.isSome := by
  refine (eat_nests token htoken).next fun found v _ => ?_
  cases found with
  | some span => exact .pure fun _ => rfl
  | none => exact .reported (missing_nests what) fun _ _ => .pure fun _ => trivial

theorem behind?_nests (token : Token) (htoken : token ≠ .eof) (hp : Nests m p P) :
    Nests m (behind? token p) fun found u => ∀ a ∈ found, P a u := by
  refine (eat_nests token htoken).past fun found => ?_
  cases found with
  | none => exact .pure fun _ => nofun
  | some span => exact hp.map fun a u ha b hb => Option.mem_some.mp hb ▸ ha

theorem ident?_nests : Nests m ident? fun found u => ∀ n ∈ found, n.span.Between m u := by
  intro s hs hm
  simp only [ident?, NestsAt, yields_bind, yields_get]
  split
  case h_1 text hident =>
    have hend := atEnd_of_peek hident (by simp)
    refine ⟨.advance hs, fun _ n hn => ?_⟩
    obtain rfl := Option.mem_some.mp hn
    rw [front_eq hend] at hm
    exact ⟨hm, Nat.le_of_lt (start_lt_stop hs hend), Nat.le_of_eq (prevEnd_advance hend).symm⟩
  case h_2 => exact ⟨.refl hs, fun _ => (by simp)⟩

theorem longIdent?_errors (s : ParserState) : longIdent?.Yields s fun _ s' => s'.errors = s.errors := by
  simp only [longIdent?, yields_bind]
  refine Yields.mono (Q := fun _ s₁ => s₁.errors = s.errors) ?_ fun head s₁ h₁ => ?_
  · simp only [ident?, yields_bind, yields_get]
    split
    · exact errors_advance s
    · exact rfl
  · cases head <;> exact h₁

theorem longIdent?_nests : Nests m longIdent? fun found u => ∀ n ∈ found, n.span.Between m u := by
  intro s hs hm
  refine ((longIdent?_readsOff hs .label fun _ => rfl).and (longIdent?_errors s)).mono fun found s' h => ?_
  obtain ⟨⟨hreads, -, -⟩, herrors⟩ := h
  refine ⟨⟨hreads.sublist (List.nil_sublist _), herrors ▸ List.prefix_rfl⟩, fun _ n hn => ?_⟩
  obtain rfl := Option.mem_def.mp hn
  have hpart {i : Ident} (hi : i ∈ n.parts) : i.span.Between m s'.prevEnd :=
    (hreads.between (m := .label i) (List.mem_map_of_mem hi)).weaken hm (Nat.le_refl _)
  exact (hpart List.mem_cons_self).merge (hpart n.last_mem)

theorem skipStray_nests : Nests m skipStray fun _ _ => True := by
  refine .getBind fun s hs hm => Nests.ite (fun _ => .pure fun _ => trivial) (fun _ => ?_) s hs hm
  exact .reported (error_nests _ _) fun _ _ => skipWhile_nests _

theorem nested_nests (hp : Nests m p P) : Nests m (nested p) P := by
  intro s hs hm
  simp only [NestsAt, nested, yields_bind, yields_modify, yields_pure]
  exact (hp { s with nesting := s.nesting + 1 } hs hm).mono fun a s' h =>
    ⟨⟨h.1.reads, h.1.errors⟩, h.2⟩

theorem withOffside_nests {column : Nat} (hp : Nests m p P) : Nests m (withOffside column p) P := by
  intro s hs hm
  simp only [NestsAt, withOffside, yields_bind, yields_get, yields_modify, yields_pure]
  exact (hp { s with offside := column } hs hm).mono fun a s' h => ⟨⟨h.1.reads, h.1.errors⟩, h.2⟩

theorem closing_errors (close : Punct) (e : SyntaxError) (s : ParserState) :
    (closing close e).Yields s fun _ s' => s.errors <+: s'.errors := by
  simp only [closing, yields_bind]
  rw [yields_eat]
  split
  · exact errors_advance s ▸ List.prefix_rfl
  · exact (errors_report s e).1

theorem closing_nests (close : Punct) (e : SyntaxError) : Nests m (closing close e) fun stop u => stop = u :=
  fun s hs _ => ((closing_readsOff close e hs).and (closing_errors close e s)).mono fun _ _ h =>
    ⟨⟨h.1.1, h.2⟩, fun _ => h.1.2⟩

/-! Types -/

variable {n : Nat}

theorem missingType_nests {P : TypeExpr → Nat → Prop} : Nests m missingType P :=
  .reported (missing_nests _) fun _ _ => .read fun _ => .pure fun _ => trivial

/-- What was read before stays what it is. -/
theorem pure_nests {t : TypeExpr} : Nests v (pure t) fun r w => t.Sits m u → u ≤ w → r.Sits m w :=
  .pure fun _ ht huw => ht.weaken (Nat.le_refl _) huw

theorem typeSuffixes_nests (n : Nat) (t : TypeExpr) (hm : m ≤ v) (hu : u ≤ v) :
    Nests v (typeSuffixes n t) fun r w => t.Sits m u → u ≤ w → r.Sits m w := by
  induction n generalizing t u v with
  | zero => exact pure_nests
  | succ n ih =>
    have hbehind {x y : Nat} {s : Span} (hvx : v ≤ x) (ht : t.Sits m u) (hs : s.Between x y) :
        (t.span.merge s).Between m y := by
      have hux : u ≤ y := Nat.le_trans hu (Nat.le_trans hvx hs.le)
      exact (ht.between.weaken (Nat.le_refl _) hux).merge
        (hs.weaken (Nat.le_trans hm hvx) (Nat.le_refl _))
    refine .getBind fun s hs hv => .ite (fun _ => pure_nests s hs hv) fun _ => ?_
    split
    case h_1 =>
      refine NestsAt.bind (longIdent?_nests s hs hv) hv fun ctor x y hxy hvy => ?_
      cases ctor with
      | none => exact pure_nests.imp fun r w hr _ _ => hr
      | some ctor =>
        refine (ih _ (Nat.le_trans hm hvy) hxy).imp fun r w hr hctor hxw ht huw => hr ⟨?_, ?_⟩ hxw
        · exact hbehind (Nat.le_refl _) ht (hctor ctor rfl)
        · exact .app (Span.contains_merge_left _ _) (Span.contains_merge_right _ _) ht.nested
    case h_2 hbracket =>
      refine .ite (fun hclose => .skip hs ?_) fun _ => pure_nests s hs hv
      have hgrows := Grows.advance hs
      rw [← peek_advance] at hclose
      refine bump_nests hgrows.parted (atEnd_of_peek hclose nofun) (Nat.le_trans hv hgrows.front_le) ?_
      intro hclose
      refine (ih _ (Nat.le_trans hm hclose.le) (Nat.le_refl _)).imp fun r w hr hw ht huw => hr ⟨?_, ?_⟩ hw
      · exact hbehind (Nat.le_refl _) ht hclose
      · exact .array (Span.contains_merge_left _ _) ht.nested
    case h_3 => exact pure_nests s hs hv

structure TypesNest (n : Nat) : Prop where
  type : ∀ m, (type n).Nests m fun t u => t.Sits m u
  tupleType : ∀ m, (tupleType n).Nests m fun t u => t.Sits m u
  tupleTypeItems : ∀ m, (tupleTypeItems n).Nests m fun items u =>
    Span.Row m u (items.map (·.span)) ∧ ∀ t ∈ items, t.Nested
  suffixedType : ∀ m, (suffixedType n).Nests m fun t u => t.Sits m u
  atomicType : ∀ m, (atomicType n).Nests m fun t u => t.Sits m u

theorem atomicType_nests (ih : TypesNest n) (m : Nat) :
    (atomicType (n + 1)).Nests m fun t u => t.Sits m u := by
  refine .getBind fun s hs hm => .ite (fun _ => missingType_nests s hs hm) fun _ => ?_
  split
  case h_1 =>
    refine NestsAt.bind (longIdent?_nests s hs hm) hm fun name u v _ _ => ?_
    cases name with
    | none => exact missingType_nests
    | some name =>
      refine .pure fun w hname huw => ⟨(hname name rfl).weaken (Nat.le_refl _) huw, ?_⟩
      exact .named (Span.contains_self _)
  case h_2 text hvar =>
    refine bump_nests hs (atEnd_of_peek hvar nofun) hm fun ht => .pure fun w hw => ?_
    exact ⟨ht.weaken (Nat.le_refl _) hw, .var (Span.contains_self _)⟩
  case h_3 hparen =>
    refine bump_nests hs (atEnd_of_peek hparen nofun) hm fun hopener => ?_
    refine (nested_nests (ih.type _)).bind fun inner u v _ _ => ?_
    refine (closing_nests _ _).map fun stop w hstop hinner huw hw => ?_
    have houter : Span.contains ⟨s.current.span.start, stop⟩ inner.span = true :=
      Span.contains_iff.mpr ⟨Nat.le_trans hopener.ordered hinner.between.after,
        hstop ▸ Nat.le_trans hinner.between.upTo huw⟩
    refine ⟨?_, hinner.nested.withSpan houter⟩
    rw [TypeExpr.span_withSpan]
    exact ⟨hopener.after, Nat.le_trans hopener.ordered (hstop ▸ hw), Nat.le_of_eq hstop⟩
  case h_4 => exact missingType_nests s hs hm

theorem suffixedType_nests (ih : TypesNest n) (m : Nat) :
    (suffixedType (n + 1)).Nests m fun t u => t.Sits m u :=
  (ih.atomicType m).bind fun t _ _ huv hmv => typeSuffixes_nests n t hmv huv

theorem tupleTypeItems_nests (ih : TypesNest n) (m : Nat) :
    (tupleTypeItems (n + 1)).Nests m fun items u =>
      Span.Row m u (items.map (·.span)) ∧ ∀ t ∈ items, t.Nested := by
  refine .read fun s => .ite (fun _ => ?_) fun _ => .pure fun _ => ⟨.nil, nofun⟩
  refine skipped_nests.next fun _ v hv => (ih.suffixedType v).bind fun item u v' huv hv' => ?_
  refine (ih.tupleTypeItems v').map fun more w hmore hitem huw => ?_
  exact ⟨(hmore.1.cons hitem.between huv huw).weaken hv (Nat.le_refl _),
    List.forall_mem_cons.mpr ⟨hitem.nested, hmore.2⟩⟩

theorem tupleType_nests (ih : TypesNest n) (m : Nat) :
    (tupleType (n + 1)).Nests m fun t u => t.Sits m u := by
  refine (ih.suffixedType m).bind fun first u v huv hmv => ?_
  refine (ih.tupleTypeItems v).bind fun more w v' hwv' _ => ?_
  split
  case h_1 last hlast =>
    refine .pure fun w' hmore hww' hfirst _ => ?_
    have hlast : last.span ∈ (more.map (·.span)).getLast? := by rw [List.getLast?_map, hlast]; rfl
    obtain ⟨hspan, hrow⟩ := Span.Row.merge hfirst.between huv hmore.1 hlast
    refine ⟨hspan.weaken (Nat.le_refl _) hww', .tuple (fun t ht => ?_) ?_⟩
    · exact (hrow.between _ (List.mem_map_of_mem (l := first :: more) ht)).contained
    · exact List.forall_mem_cons.mpr ⟨hfirst.nested, hmore.2⟩
  case h_2 => exact .pure fun w' hmore hww' hfirst huw' => hfirst.weaken (Nat.le_refl _) huw'

theorem type_nests (ih : TypesNest n) (m : Nat) : (type (n + 1)).Nests m fun t u => t.Sits m u := by
  refine (ih.tupleType m).bind fun lhs u v huv hmv => .read fun s => .ite (fun _ => ?_) fun _ => ?_
  · refine skipped_nests.next fun _ v' hv' => (ih.type v').map fun rhs w hrhs hlhs huw => ?_
    refine ⟨?_, .function (Span.contains_merge_left _ _) (Span.contains_merge_right _ _) hlhs.nested hrhs.nested⟩
    exact (hlhs.between.weaken (Nat.le_refl _) huw).merge
      (hrhs.between.weaken (Nat.le_trans hmv hv') (Nat.le_refl _))
  · exact pure_nests

theorem typesNest (n : Nat) : TypesNest n := by
  induction n with
  | zero =>
    exact ⟨fun _ => missingType_nests, fun _ => missingType_nests, fun _ => .pure fun _ => ⟨.nil, nofun⟩,
      fun _ => missingType_nests, fun _ => missingType_nests⟩
  | succ n ih =>
    exact ⟨type_nests ih, tupleType_nests ih, tupleTypeItems_nests ih, suffixedType_nests ih,
      atomicType_nests ih⟩

/-! Patterns -/

theorem invalidPattern_nests {P : Pattern → Nat → Prop} : Nests m invalidPattern P :=
  .read fun _ => .reported (error_nests _ _) fun _ _ => .pure fun _ => trivial

structure PatternsNest (n : Nat) : Prop where
  atomicPattern : ∀ m, (atomicPattern n).Nests m fun p u => p.Sits m u
  tuplePattern : ∀ m, (tuplePattern n).Nests m fun p u => p.Sits m u
  tuplePatternItems : ∀ m p, (tuplePatternItems n p).Nests m fun items u =>
    Span.Row m u (items.map (·.span)) ∧ ∀ p ∈ items, p.Nested
  annotatedPattern : ∀ m, (annotatedPattern n).Nests m fun p u => p.Sits m u

theorem atomicPattern_nests (ih : PatternsNest n) (m : Nat) :
    (atomicPattern (n + 1)).Nests m fun p u => p.Sits m u := by
  refine .getBind fun s hs hm => ?_
  dsimp only
  split
  case h_1 text hident =>
    refine skip_nests hs (atEnd_of_peek hident nofun) hm fun ht => .pure fun w hw => ?_
    split
    · exact ⟨ht.weaken (Nat.le_refl _) hw, .wildcard⟩
    · exact ⟨ht.weaken (Nat.le_refl _) hw, .named (Span.contains_self _)⟩
  case h_2 hparen =>
    refine skip_nests hs (atEnd_of_peek hparen nofun) hm fun hopener => ?_
    refine (eat_nests (.punct .rparen) nofun).bind fun found u v _ hv => ?_
    cases found with
    | some close =>
      refine .pure fun w hclose huw hw => ⟨?_, .unit⟩
      exact (hopener.weaken (Nat.le_refl _) hw).merge ((hclose close rfl).weaken hopener.le huw)
    | none =>
      refine (nested_nests (ih.tuplePattern v)).bind fun inner x y _ _ => ?_
      refine (closing_nests _ _).map fun stop w hstop hinner hxw _ _ hw => ?_
      have houter : Span.contains ⟨s.current.span.start, stop⟩ inner.span = true :=
        Span.contains_iff.mpr ⟨Nat.le_trans hopener.ordered (Nat.le_trans hv hinner.between.after),
          hstop ▸ Nat.le_trans hinner.between.upTo hxw⟩
      refine ⟨?_, hinner.nested.withSpan houter⟩
      rw [Pattern.span_withSpan]
      exact ⟨hopener.after, Nat.le_trans hopener.ordered (hstop ▸ hw), Nat.le_of_eq hstop⟩
  case h_3 => exact invalidPattern_nests s hs hm

theorem tuplePatternItems_nests (ih : PatternsNest n) (m : Nat) (p : Pattern) :
    (tuplePatternItems (n + 1) p).Nests m fun items u =>
      Span.Row m u (items.map (·.span)) ∧ ∀ p ∈ items, p.Nested := by
  refine .ite (fun _ => .pure fun _ => ⟨.nil, nofun⟩) fun _ => ?_
  refine (eat_nests (.punct .comma) nofun).next fun found v hv => ?_
  cases found with
  | none => exact .pure fun _ => ⟨.nil, nofun⟩
  | some comma =>
    refine (ih.annotatedPattern v).bind fun item u v' huv hv' => ?_
    refine (ih.tuplePatternItems v' item).map fun more w hmore hitem huw => ?_
    exact ⟨(hmore.1.cons hitem.between huv huw).weaken hv (Nat.le_refl _),
      List.forall_mem_cons.mpr ⟨hitem.nested, hmore.2⟩⟩

theorem tuplePattern_nests (ih : PatternsNest n) (m : Nat) :
    (tuplePattern (n + 1)).Nests m fun p u => p.Sits m u := by
  refine (ih.annotatedPattern m).bind fun first u v huv hmv => ?_
  refine (ih.tuplePatternItems v first).bind fun more w v' hwv' _ => ?_
  split
  case h_1 last hlast =>
    refine .pure fun w' hmore hww' hfirst _ => ?_
    have hlast : last.span ∈ (more.map (·.span)).getLast? := by rw [List.getLast?_map, hlast]; rfl
    obtain ⟨hspan, hrow⟩ := Span.Row.merge hfirst.between huv hmore.1 hlast
    refine ⟨hspan.weaken (Nat.le_refl _) hww', .tuple (fun p hp => ?_) ?_⟩
    · exact (hrow.between _ (List.mem_map_of_mem (l := first :: more) hp)).contained
    · exact List.forall_mem_cons.mpr ⟨hfirst.nested, hmore.2⟩
  case h_2 => exact .pure fun w' hmore hww' hfirst huw' => hfirst.weaken (Nat.le_refl _) huw'

theorem annotatedPattern_nests (ih : PatternsNest n) (m : Nat) :
    (annotatedPattern (n + 1)).Nests m fun p u => p.Sits m u := by
  refine (ih.atomicPattern m).bind fun p u v huv hmv => ?_
  refine (eat_nests (.punct .colon) nofun).next fun found v' hv' => ?_
  cases found with
  | none => exact .pure fun w hp huw => hp.weaken (Nat.le_refl _) huw
  | some colon =>
    refine ((typesNest n).type v').map fun t w ht hp huw => ?_
    refine ⟨?_, .typed (Span.contains_merge_left _ _) (Span.contains_merge_right _ _) hp.nested ht.nested⟩
    exact (hp.between.weaken (Nat.le_refl _) huw).merge
      (ht.between.weaken (Nat.le_trans hmv hv') (Nat.le_refl _))

theorem patternsNest (n : Nat) : PatternsNest n := by
  induction n with
  | zero =>
    exact ⟨fun _ => invalidPattern_nests, fun _ => invalidPattern_nests,
      fun _ _ => .pure fun _ => ⟨.nil, nofun⟩, fun _ => invalidPattern_nests⟩
  | succ n ih =>
    exact ⟨atomicPattern_nests ih, tuplePattern_nests ih, tuplePatternItems_nests ih,
      annotatedPattern_nests ih⟩

theorem params_nests (n m : Nat) : (params n).Nests m fun ps u => ∀ p ∈ ps, p.Sits m u := by
  induction n generalizing m with
  | zero => exact .pure fun _ => nofun
  | succ n ih =>
    have hmore : Nests m (do let p ← atomicPattern n; let ps ← params n; return p :: ps) fun ps u =>
        ∀ p ∈ ps, p.Sits m u := by
      refine ((patternsNest n).atomicPattern m).along fun p u => (ih m).map fun ps w hps hp huw => ?_
      exact List.forall_mem_cons.mpr ⟨hp.weaken (Nat.le_refl _) huw, hps⟩
    refine .read fun s => ?_
    split
    · exact .ite (fun _ => .pure fun _ => nofun) fun _ => hmore
    · exact .ite (fun _ => .pure fun _ => nofun) fun _ => hmore
    · exact .pure fun _ => nofun

end Parser
end ScriptAnalyzer

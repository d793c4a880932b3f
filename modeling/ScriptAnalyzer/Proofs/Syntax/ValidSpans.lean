import ScriptAnalyzer.Proofs.Syntax.Landmarks
import ScriptAnalyzer.Proofs.Syntax.LetPlaces

/-!
The spans of a tree, and how the spans that a parser makes come from those of its tokens.
-/

namespace ScriptAnalyzer

/-! The spans of trees -/

def LongIdent.spans (n : LongIdent) : List Span := n.span :: n.parts.map (·.span)

namespace TypeExpr

mutual

def spans : TypeExpr → List Span
  | named s n => s :: n.spans
  | var s n => [s, n.span]
  | app s argument ctor => s :: (spans argument ++ ctor.spans)
  | array s element => s :: spans element
  | function s domain codomain => s :: (spans domain ++ spans codomain)
  | tuple s items => s :: spansOfAll items
  | error s => [s]

def spansOfAll : List TypeExpr → List Span
  | [] => []
  | t :: ts => spans t ++ spansOfAll ts

end

end TypeExpr

namespace Pattern

mutual

def spans : Pattern → List Span
  | named s n => [s, n.span]
  | wildcard s | unit s | error s => [s]
  | tuple s items => s :: spansOfAll items
  | typed s inner t => s :: (spans inner ++ t.spans)

def spansOfAll : List Pattern → List Span
  | [] => []
  | p :: ps => spans p ++ spansOfAll ps

end

end Pattern

def LetHead.spans (head : LetHead) : List Span :=
  head.span :: (head.pattern.spans ++ Pattern.spansOfAll head.params ++
    (head.returnType.map TypeExpr.spans).getD [])

namespace Expr

/-- The spans of an expression that are no spans of its children. -/
def ownSpans : Expr → List Span
  | literal s _ | app s _ _ | neg s _ | conditional s _ _ _ | sequential s _ _ | tuple s _ | list s _
  | paren s _ | error s => [s]
  | ident n => [n.span]
  | member s _ dot name => s :: dot :: name.toList.map (·.span)
  | call s _ _ parens => [s, parens]
  | binary s _ opSpan _ _ => [s, opSpan]
  | lambda s params _ => s :: Pattern.spansOfAll params
  | letIn s head _ _ => s :: head.spans
  | record s fields => s :: fields.map (·.1.span)
  | typed s _ t => s :: t.spans

def spans (e : Expr) : List Span := e.preorder.flatMap ownSpans

theorem span_mem_ownSpans (e : Expr) : e.span ∈ e.ownSpans := by
  cases e <;> exact List.mem_cons_self

end Expr

def TypeBody.spans : TypeBody → List Span
  | record fields => fields.flatMap fun f => f.1.span :: f.2.spans
  | abbreviation t => t.spans

def Directive.spans (d : Directive) : List Span := d.span :: d.name.span :: d.args.map (·.span)

namespace Decl

mutual

def spans : Decl → List Span
  | binding s b => s :: (b.toLetHead.spans ++ b.body.spans)
  | «open» s name => s :: name.spans
  | module s name ds => s :: name.span :: spansOfAll ds
  | type s name body => s :: name.span :: body.spans
  | directive s d => s :: d.spans
  | expr s e => s :: e.spans
  | error s => [s]

def spansOfAll : List Decl → List Span
  | [] => []
  | d :: ds => spans d ++ spansOfAll ds

end

end Decl

/-- The spans of the tree, from the header to the last declaration. -/
def SyntaxFile.spans (f : SyntaxFile) : List Span :=
  (f.header.map LongIdent.spans).getD [] ++ Decl.spansOfAll f.decls

/-! What fits the tokens -/

/-- Places that tokens tell of: those where parts of the text start and end, and those where braces
open. -/
structure Sites where
  IsEdge : Nat → Prop
  IsBrace : Nat → Prop

variable {g : Sites} {m m' : Nat}

structure Span.Fits (g : Sites) (s : Span) : Prop where
  ordered : s.start ≤ s.stop
  start : g.IsEdge s.start
  stop : g.IsEdge s.stop

structure LaidToken.Fits (g : Sites) (t : LaidToken) : Prop where
  span : t.span.Fits g
  /-- The name of a directive stands behind its hash. -/
  name : ∀ raw, t.token = .directive raw → Span.Fits g ⟨t.span.start + 1, t.span.stop⟩
  brace : t.token = .punct .lbrace → g.IsBrace t.span.start

namespace Span.Fits

variable {s t : Span}

theorem empty {n : Nat} (h : g.IsEdge n) : (Span.empty n).Fits g := ⟨Nat.le_refl n, h, h⟩

theorem merge (hs : s.Fits g) (ht : t.Fits g) : (s.merge t).Fits g where
  ordered := Nat.le_trans (Nat.min_le_left _ _) (Nat.le_trans hs.ordered (Nat.le_max_left _ _))
  start := by
    rw [Span.merge]
    rcases Nat.le_total s.start t.start with h | h
    · exact (Nat.min_eq_left h).symm ▸ hs.start
    · exact (Nat.min_eq_right h).symm ▸ ht.start
  stop := by
    rw [Span.merge]
    rcases Nat.le_total s.stop t.stop with h | h
    · exact (Nat.max_eq_right h).symm ▸ ht.stop
    · exact (Nat.max_eq_left h).symm ▸ hs.stop

end Span.Fits

def TypeExpr.Fits (g : Sites) (t : TypeExpr) : Prop := ∀ s ∈ t.spans, s.Fits g

def Pattern.Fits (g : Sites) (p : Pattern) : Prop := ∀ s ∈ p.spans, s.Fits g

def LongIdent.Fits (g : Sites) (n : LongIdent) : Prop := ∀ s ∈ n.spans, s.Fits g

theorem TypeExpr.Fits.span {t : TypeExpr} (h : t.Fits g) : t.span.Fits g :=
  h _ (by cases t <;> exact List.mem_cons_self)

theorem Pattern.Fits.span {p : Pattern} (h : p.Fits g) : p.span.Fits g :=
  h _ (by cases p <;> exact List.mem_cons_self)

theorem LongIdent.Fits.span {n : LongIdent} (h : n.Fits g) : n.span.Fits g := h _ List.mem_cons_self

theorem TypeExpr.spansOfAll_eq (ts : List TypeExpr) : spansOfAll ts = ts.flatMap spans := by
  induction ts with
  | nil => rfl
  | cons t ts ih => rw [spansOfAll, ih, List.flatMap_cons]

theorem Pattern.spansOfAll_eq (ps : List Pattern) : spansOfAll ps = ps.flatMap spans := by
  induction ps with
  | nil => rfl
  | cons p ps ih => rw [spansOfAll, ih, List.flatMap_cons]

theorem TypeExpr.fits_ofAll {ts : List TypeExpr} (h : ∀ t ∈ ts, t.Fits g) :
    ∀ s ∈ spansOfAll ts, s.Fits g := by
  rw [spansOfAll_eq]
  exact fun s hs => by
    obtain ⟨t, ht, hs⟩ := List.mem_flatMap.mp hs
    exact h t ht s hs

theorem Pattern.fits_ofAll {ps : List Pattern} (h : ∀ p ∈ ps, p.Fits g) :
    ∀ s ∈ spansOfAll ps, s.Fits g := by
  rw [spansOfAll_eq]
  exact fun s hs => by
    obtain ⟨p, hp, hs⟩ := List.mem_flatMap.mp hs
    exact h p hp s hs

theorem TypeExpr.Fits.withSpan {t : TypeExpr} (h : t.Fits g) {s : Span} (hs : s.Fits g) :
    (t.withSpan s).Fits g := by
  cases t <;> exact List.forall_mem_cons.mpr ⟨hs, (List.forall_mem_cons.mp h).2⟩

theorem Pattern.Fits.withSpan {p : Pattern} (h : p.Fits g) {s : Span} (hs : s.Fits g) :
    (p.withSpan s).Fits g := by
  cases p <;> exact List.forall_mem_cons.mpr ⟨hs, (List.forall_mem_cons.mp h).2⟩

theorem LongIdent.fits_of_parts {n : LongIdent} (h : ∀ i ∈ n.parts, i.span.Fits g) : n.Fits g := by
  refine List.forall_mem_cons.mpr ⟨(h _ List.mem_cons_self).merge (h _ ?_), ?_⟩
  · rw [last]
    cases hlast : n.tail.getLast? with
    | none => exact List.mem_cons_self
    | some i => exact List.mem_cons_of_mem _ (List.mem_of_getLast? hlast)
  · exact fun s hs => by
      obtain ⟨i, hi, rfl⟩ := List.mem_map.mp hs
      exact h i hi

namespace ParserState

/-- The tokens, the errors and the place where the parser stands fit; it stands behind `m`. -/
structure Fits (g : Sites) (m : Nat) (s : ParserState) : Prop where
  ascending : Ascending s.prevEnd s.rest
  tokens : ∀ t ∈ s.rest, t.Fits g
  size : g.IsEdge s.size
  prevEnd : g.IsEdge s.prevEnd
  behind : m ≤ s.prevEnd
  errors : ∀ e ∈ s.errors, e.span.Fits g

namespace Fits

variable {s s' : ParserState}

theorem weaken (h : s.Fits g m) (hm : m' ≤ m) : s.Fits g m' :=
  { h with behind := Nat.le_trans hm h.behind }

theorem of_reads {read : List LaidToken} (h : s.Fits g m) (hread : Reads read s s')
    (herrors : ∀ e ∈ s'.errors, e.span.Fits g) : s'.Fits g m := by
  have hrest := hread.rest
  have hascending := h.ascending
  rw [hrest] at hascending
  refine ⟨hread.prevEnd ▸ hascending.append.2, fun t ht => ?_, hread.size ▸ h.size, ?_, ?_, herrors⟩
  · exact h.tokens t (hrest ▸ List.mem_append_right _ ht)
  · rw [hread.prevEnd, lastStop]
    cases hlast : read.getLast? with
    | none => exact h.prevEnd
    | some t => exact (h.tokens t (hrest ▸ List.mem_append_left _ (List.mem_of_getLast? hlast))).span.stop
  · exact hread.prevEnd ▸ Nat.le_trans h.behind hascending.append.1.le_lastStop

theorem report (h : s.Fits g m) {e : SyntaxError} (he : e.span.Fits g) : (s.report e).Fits g m := by
  refine h.of_reads (reads_report s e) ?_
  unfold ParserState.report
  split
  · exact h.errors
  · exact List.forall_mem_append.mpr ⟨h.errors, List.forall_mem_singleton.mpr he⟩

theorem mem_current (hend : s.atEnd = false) : s.current ∈ s.rest := by
  have hrest := (reads_current hend).rest
  rw [hrest]
  exact List.mem_append_left _ List.mem_cons_self

theorem current (h : s.Fits g m) (hend : s.atEnd = false) : s.current.Fits g :=
  h.tokens _ (mem_current hend)

theorem le_start (h : s.Fits g m) (hend : s.atEnd = false) : m ≤ s.current.span.start :=
  Nat.le_trans h.behind (h.ascending.of_mem (mem_current hend)).1

/-- The next token fits even if it is the end of the file. -/
theorem currentSpan (h : s.Fits g m) : s.current.span.Fits g := by
  cases hend : s.atEnd with
  | true =>
    rw [ParserState.current, List.isEmpty_iff.mp hend]
    exact .empty h.size
  | false => exact (h.current hend).span

theorem advance (h : s.Fits g m) : s.advance.Fits g m := by
  have herrors : ∀ e ∈ s.advance.errors, e.span.Fits g := errors_advance s ▸ h.errors
  rcases reads_advance s with hread | ⟨-, hread⟩
  · exact h.of_reads hread herrors
  · exact h.of_reads hread herrors

theorem advanced (h : s.Fits g m) (hend : s.atEnd = false) :
    s.advance.Fits g s.current.span.stop := by
  refine { h.advance with behind := Nat.le_of_eq ?_ }
  rw [(reads_current hend).prevEnd]
  rfl

theorem anchor (h : s.Fits g m) (a : Option Nat) : Fits g m { s with anchor := a } := { h with }

theorem nesting (h : s.Fits g m) (n : Nat) : Fits g m { s with nesting := n } := { h with }

theorem offside (h : s.Fits g m) (n : Nat) : Fits g m { s with offside := n } := { h with }

end Fits
end ParserState

/-! Parsers -/

namespace Parser

open ParserState

variable {α β : Type} {p : Parser α} {f : α → Parser β} {P : α → Prop} {Q : β → Prop} {s : ParserState}

/-- From states that fit the parser comes to states that fit, with results in `Q`. -/
def Keeps (p : Parser α) (g : Sites) (m : Nat) (Q : α → Prop) : Prop :=
  ∀ s, s.Fits g m → p.Yields s fun a s' => s'.Fits g m ∧ Q a

namespace Keeps

theorem bind (hp : p.Keeps g m P) (hf : ∀ a, P a → (f a).Keeps g m Q) : (p >>= f).Keeps g m Q :=
  fun s hs => (hp s hs).mono fun a s₁ h₁ => hf a h₁.2 s₁ h₁.1

theorem next (hp : p.Keeps g m P) (hf : ∀ a, (f a).Keeps g m Q) : (p >>= f).Keeps g m Q :=
  hp.bind fun a _ => hf a

theorem pure {a : α} (h : P a) : Keeps (pure a) g m P := fun _ hs => ⟨hs, h⟩

theorem imp {R : α → Prop} (hp : p.Keeps g m P) (h : ∀ a, P a → R a) : p.Keeps g m R :=
  fun s hs => (hp s hs).mono fun a _ h' => ⟨h'.1, h a h'.2⟩

/-- The state is looked at where it fits. -/
theorem getBind {f : ParserState → Parser β} (hf : ∀ s, s.Fits g m → (f s).Keeps g m Q) :
    (get >>= f).Keeps g m Q :=
  fun s hs => hf s hs s hs

theorem ite {c : Prop} [Decidable c] {q : Parser α} (hp : c → p.Keeps g m P) (hq : ¬c → q.Keeps g m P) :
    Keeps (if c then p else q) g m P := by
  split
  case isTrue h => exact hp h
  case isFalse h => exact hq h

theorem modify {h : ParserState → ParserState} (hh : ∀ s, s.Fits g m → (h s).Fits g m) :
    Keeps (modify h) g m fun _ => True :=
  fun s hs => ⟨hh s hs, trivial⟩

end Keeps

/-- A token is read, and what follows stands behind it. -/
theorem bumped {f : LaidToken → Parser β} (hs : s.Fits g m) (hend : s.atEnd = false)
    (hf : s.current.Fits g → (f s.current).Keeps g s.current.span.stop Q) :
    (bump >>= f).Yields s fun b s' => s'.Fits g m ∧ Q b := by
  have hfits := hs.current hend
  have hle := Nat.le_trans (hs.le_start hend) hfits.span.ordered
  rw [yields_bind, yields_bump]
  exact (hf hfits s.advance (hs.advanced hend)).mono fun b s' h => ⟨h.1.weaken hle, h.2⟩

theorem skipped {p : Parser β} (hs : s.Fits g m) (hend : s.atEnd = false)
    (hp : s.current.Fits g → p.Keeps g s.current.span.stop Q) :
    (do skip; p : Parser β).Yields s fun b s' => s'.Fits g m ∧ Q b :=
  bumped (f := fun _ => p) hs hend hp

/-! Elementary steps -/

theorem skip_keeps : skip.Keeps g m fun _ => True := .modify fun _ h => h.advance

theorem bump_keeps : bump.Keeps g m fun t => t.span.Fits g := fun _ hs => ⟨hs.advance, hs.currentSpan⟩

theorem report_keeps {e : SyntaxError} (he : e.span.Fits g) : (report e).Keeps g m fun _ => True :=
  .modify fun _ h => h.report he

theorem error_keeps (cause : SyntaxError.Cause) {span : Span} (h : span.Fits g) :
    (error cause span).Keeps g m fun _ => True :=
  report_keeps h

theorem setAnchor_keeps : setAnchor.Keeps g m fun _ => True := .modify fun _ h => h.anchor _

theorem eat_keeps (token : Token) (htoken : token ≠ .eof) :
    (eat token).Keeps g m fun found => ∀ span ∈ found, span.Fits g ∧ m ≤ span.start := by
  intro s hs
  rw [yields_eat]
  split
  case isTrue h =>
    have hend := atEnd_of_peek h htoken
    exact ⟨hs.advance, fun span hspan => Option.mem_some.mp hspan ▸ ⟨hs.currentSpan, hs.le_start hend⟩⟩
  case isFalse => exact ⟨hs, nofun⟩

theorem unexpected_keeps : unexpected.Keeps g m fun _ => True :=
  .getBind fun _ hs => .ite (fun _ => error_keeps _ (.empty hs.prevEnd)) fun _ => error_keeps _ hs.currentSpan

theorem missing_keeps (what : String) : (missing what).Keeps g m fun _ => True := by
  refine .getBind fun s hs => error_keeps _ ?_
  split
  · exact .empty hs.prevEnd
  · exact hs.currentSpan

theorem when_keeps {b : Bool} {q : Parser Unit} (hq : q.Keeps g m fun _ => True) :
    (when b q).Keeps g m fun _ => True :=
  .ite (fun _ => hq) fun _ => .pure trivial

theorem reject_keeps : reject.Keeps g m fun _ => True := unexpected_keeps.next fun _ => skip_keeps

theorem ifStuck_keeps {left : Nat} {q : Parser Unit} (hq : q.Keeps g m fun _ => True) :
    (ifStuck left q).Keeps g m fun _ => True :=
  .getBind fun _ _ => .ite (fun _ => hq) fun _ => .pure trivial

theorem expect_keeps (token : Token) (htoken : token ≠ .eof) (what : String) :
    (expect token what).Keeps g m fun _ => True := by
  refine (eat_keeps token htoken).next fun found => ?_
  cases found with
  | some span => exact .pure trivial
  | none => exact (missing_keeps what).next fun _ => .pure trivial

theorem behind?_keeps (token : Token) (htoken : token ≠ .eof) (hp : p.Keeps g m P) :
    (behind? token p).Keeps g m fun found => ∀ a ∈ found, P a := by
  refine (eat_keeps token htoken).next fun found => ?_
  cases found with
  | none => exact .pure nofun
  | some span => exact hp.bind fun a ha => .pure fun b hb => Option.mem_some.mp hb ▸ ha

theorem ident?_keeps : ident?.Keeps g m fun found => ∀ n ∈ found, n.span.Fits g := by
  refine .getBind fun s hs => ?_
  split
  · exact bump_keeps.bind fun t ht => .pure fun n hn => Option.mem_some.mp hn ▸ ht
  · exact .pure nofun

theorem segments_fit {ts : List LaidToken} (h : ∀ t ∈ ts, t.Fits g) :
    ∀ n ∈ segments ts, n.span.Fits g := by
  fun_induction segments ts with
  | case1 _ _ _ _ _ _ _ _ ih =>
    obtain ⟨-, h⟩ := List.forall_mem_cons.mp h
    obtain ⟨hname, hrest⟩ := List.forall_mem_cons.mp h
    exact List.forall_mem_cons.mpr ⟨hname.span, ih hrest⟩
  | case2 => simp

theorem longIdent?_keeps : longIdent?.Keeps g m fun found => ∀ n ∈ found, n.Fits g := by
  refine ident?_keeps.bind fun head hhead => ?_
  cases head with
  | none => exact .pure nofun
  | some head =>
    intro s hs
    obtain ⟨read, hrest, -, hstop⟩ := segments_read s.rest
    simp only [yields_bind, yields_get, yields_modify, yields_pure]
    refine ⟨hs.of_reads ⟨hrest, (hstop _).symm, List.prefix_rfl, rfl, rfl, rfl, rfl⟩ hs.errors, ?_⟩
    refine fun n hn => Option.mem_some.mp hn ▸ LongIdent.fits_of_parts ?_
    exact List.forall_mem_cons.mpr ⟨hhead head rfl, segments_fit hs.tokens⟩

theorem skipWhile_keeps (q : LaidToken → Bool) : (skipWhile q).Keeps g m fun _ => True :=
  .modify fun s hs => hs.of_reads (show Reads (s.rest.takeWhile q) s _ from
    ⟨List.takeWhile_append_dropWhile.symm, rfl, List.prefix_rfl, rfl, rfl, rfl, rfl⟩) hs.errors

theorem skipStray_keeps : skipStray.Keeps g m fun _ => True :=
  .getBind fun _ hs => .ite (fun _ => .pure trivial) fun _ =>
    (error_keeps _ hs.currentSpan).next fun _ => skipWhile_keeps _

theorem nested_keeps (hp : p.Keeps g m P) : (nested p).Keeps g m P :=
  Keeps.next (.modify fun _ hs => hs.nesting _) fun _ => hp.bind fun _ ha =>
    Keeps.next (.modify fun _ hs => hs.nesting _) fun _ => .pure ha

theorem withOffside_keeps {column : Nat} (hp : p.Keeps g m P) : (withOffside column p).Keeps g m P :=
  .getBind fun _ _ => Keeps.next (.modify fun _ hs => hs.offside _) fun _ => hp.bind fun _ ha =>
    Keeps.next (.modify fun _ hs => hs.offside _) fun _ => .pure ha

theorem closing_keeps (close : Punct) {e : SyntaxError} (he : e.span.Fits g) :
    (closing close e).Keeps g m fun stop => g.IsEdge stop ∧ m ≤ stop := by
  refine (eat_keeps (.punct close) nofun).bind fun found hfound => ?_
  cases found with
  | some span =>
    obtain ⟨hspan, hle⟩ := hfound span rfl
    exact .pure ⟨hspan.stop, Nat.le_trans hle hspan.ordered⟩
  | none => exact (report_keeps he).next fun _ => .getBind fun s hs => .pure ⟨hs.prevEnd, hs.behind⟩

/-! Types -/

theorem missingType_keeps : missingType.Keeps g m (·.Fits g) :=
  (missing_keeps _).next fun _ => .getBind fun _ hs => .pure (List.forall_mem_singleton.mpr (.empty hs.prevEnd))

theorem typeSuffixes_keeps (n : Nat) {t : TypeExpr} (ht : t.Fits g) :
    (typeSuffixes n t).Keeps g m (·.Fits g) := by
  induction n generalizing t with
  | zero => exact .pure ht
  | succ n ih =>
    refine .getBind fun s hs => .ite (fun _ => .pure ht) fun _ => ?_
    split
    · refine longIdent?_keeps.bind fun ctor hctor => ?_
      cases ctor with
      | none => exact .pure ht
      | some ctor =>
        have hctor := hctor ctor rfl
        exact ih (List.forall_mem_cons.mpr ⟨ht.span.merge hctor.span, List.forall_mem_append.mpr ⟨ht, hctor⟩⟩)
    · refine .ite (fun _ => ?_) fun _ => .pure ht
      exact skip_keeps.next fun _ => bump_keeps.bind fun close hclose =>
        ih (List.forall_mem_cons.mpr ⟨ht.span.merge hclose, ht⟩)
    · exact .pure ht

structure TypesKeep (g : Sites) (n : Nat) : Prop where
  type : ∀ m, (type n).Keeps g m (·.Fits g)
  tupleType : ∀ m, (tupleType n).Keeps g m (·.Fits g)
  tupleTypeItems : ∀ m, (tupleTypeItems n).Keeps g m fun items => ∀ t ∈ items, t.Fits g
  suffixedType : ∀ m, (suffixedType n).Keeps g m (·.Fits g)
  atomicType : ∀ m, (atomicType n).Keeps g m (·.Fits g)

theorem atomicType_keeps {n : Nat} (ih : TypesKeep g n) (m : Nat) :
    (atomicType (n + 1)).Keeps g m (·.Fits g) := by
  intro s hs
  simp only [atomicType, yields_bind, yields_get]
  split
  · exact missingType_keeps s hs
  · split
    · suffices h : Keeps _ g m (TypeExpr.Fits g) from h s hs
      refine longIdent?_keeps.bind fun name hname => ?_
      cases name with
      | none => exact missingType_keeps
      | some name => exact .pure (List.forall_mem_cons.mpr ⟨(hname name rfl).span, hname name rfl⟩)
    case h_2 text _ =>
      suffices h : Keeps _ g m (TypeExpr.Fits g) from h s hs
      exact bump_keeps.bind fun t ht =>
        .pure (List.forall_mem_cons.mpr ⟨ht, List.forall_mem_singleton.mpr ht⟩)
    case h_3 hparen =>
      refine bumped hs (atEnd_of_peek hparen (by simp)) fun hopener => ?_
      refine (nested_keeps (ih.type _)).bind fun inner hinner => ?_
      refine (closing_keeps _ hopener.span).bind fun stop hstop => .pure (hinner.withSpan ?_)
      exact ⟨Nat.le_trans hopener.span.ordered hstop.2, hopener.span.start, hstop.1⟩
    · exact missingType_keeps s hs

theorem typesKeep (g : Sites) (n : Nat) : TypesKeep g n := by
  induction n with
  | zero =>
    exact ⟨fun _ => missingType_keeps, fun _ => missingType_keeps, fun _ => .pure nofun,
      fun _ => missingType_keeps, fun _ => missingType_keeps⟩
  | succ n ih =>
    refine ⟨fun m => ?type, fun m => ?tupleType, fun m => ?items, fun m => ?suffixed, atomicType_keeps ih⟩
    case type =>
      refine (ih.tupleType m).bind fun lhs hlhs => .getBind fun s hs => .ite (fun _ => ?_) fun _ => .pure hlhs
      refine skip_keeps.next fun _ => (ih.type m).bind fun rhs hrhs => .pure ?_
      exact List.forall_mem_cons.mpr ⟨hlhs.span.merge hrhs.span, List.forall_mem_append.mpr ⟨hlhs, hrhs⟩⟩
    case tupleType =>
      refine (ih.suffixedType m).bind fun first hfirst => (ih.tupleTypeItems m).bind fun more hmore => ?_
      split
      case h_1 last hlast =>
        have hlast := hmore last (List.mem_of_getLast? hlast)
        refine .pure (List.forall_mem_cons.mpr ⟨hfirst.span.merge hlast.span, TypeExpr.fits_ofAll ?_⟩)
        exact List.forall_mem_cons.mpr ⟨hfirst, hmore⟩
      case h_2 => exact .pure hfirst
    case items =>
      refine .getBind fun s hs => .ite (fun _ => ?_) fun _ => .pure nofun
      refine skip_keeps.next fun _ => (ih.suffixedType m).bind fun item hitem => ?_
      exact (ih.tupleTypeItems m).bind fun more hmore => .pure (List.forall_mem_cons.mpr ⟨hitem, hmore⟩)
    case suffixed =>
      exact (ih.atomicType m).bind fun atom hatom => typeSuffixes_keeps n hatom

/-! Patterns -/

theorem invalidPattern_keeps : invalidPattern.Keeps g m (·.Fits g) :=
  .getBind fun _ hs => (error_keeps _ hs.currentSpan).next fun _ =>
    .pure (List.forall_mem_singleton.mpr (.empty hs.currentSpan.start))

structure PatternsKeep (g : Sites) (n : Nat) : Prop where
  atomicPattern : ∀ m, (atomicPattern n).Keeps g m (·.Fits g)
  tuplePattern : ∀ m, (tuplePattern n).Keeps g m (·.Fits g)
  tuplePatternItems : ∀ m item, (tuplePatternItems n item).Keeps g m fun items => ∀ p ∈ items, p.Fits g
  annotatedPattern : ∀ m, (annotatedPattern n).Keeps g m (·.Fits g)

theorem atomicPattern_keeps {n : Nat} (ih : PatternsKeep g n) (m : Nat) :
    (atomicPattern (n + 1)).Keeps g m (·.Fits g) := by
  intro s hs
  simp only [atomicPattern, yields_bind, yields_get]
  split
  case h_1 text hident =>
    refine skipped hs (atEnd_of_peek hident (by simp)) fun ht => .pure ?_
    split
    · exact List.forall_mem_singleton.mpr ht.span
    · exact List.forall_mem_cons.mpr ⟨ht.span, List.forall_mem_singleton.mpr ht.span⟩
  case h_2 hparen =>
    refine skipped hs (atEnd_of_peek hparen (by simp)) fun ht =>
      (eat_keeps (.punct .rparen) (by simp)).bind fun close hclose => ?_
    cases close with
    | some close => exact .pure (List.forall_mem_singleton.mpr (ht.span.merge (hclose close rfl).1))
    | none =>
      refine (nested_keeps (ih.tuplePattern _)).bind fun inner hinner => ?_
      refine (closing_keeps _ ht.span).bind fun stop hstop => .pure (hinner.withSpan ?_)
      exact ⟨Nat.le_trans ht.span.ordered hstop.2, ht.span.start, hstop.1⟩
  case h_3 => exact invalidPattern_keeps s hs

theorem patternsKeep (g : Sites) (n : Nat) : PatternsKeep g n := by
  induction n with
  | zero =>
    exact ⟨fun _ => invalidPattern_keeps, fun _ => invalidPattern_keeps, fun _ _ => .pure nofun,
      fun _ => invalidPattern_keeps⟩
  | succ n ih =>
    refine ⟨atomicPattern_keeps ih, fun m => ?tuple, fun m item => ?items, fun m => ?annotated⟩
    case tuple =>
      refine (ih.annotatedPattern m).bind fun first hfirst => ?_
      refine (ih.tuplePatternItems m first).bind fun more hmore => ?_
      split
      case h_1 last hlast =>
        have hlast := hmore last (List.mem_of_getLast? hlast)
        refine .pure (List.forall_mem_cons.mpr ⟨hfirst.span.merge hlast.span, Pattern.fits_ofAll ?_⟩)
        exact List.forall_mem_cons.mpr ⟨hfirst, hmore⟩
      case h_2 => exact .pure hfirst
    case items =>
      refine .ite (fun _ => .pure nofun) fun _ => (eat_keeps (.punct .comma) nofun).next fun comma => ?_
      cases comma with
      | none => exact .pure nofun
      | some comma =>
        refine (ih.annotatedPattern m).bind fun item hitem => ?_
        refine (ih.tuplePatternItems m item).bind fun more hmore => .pure ?_
        exact List.forall_mem_cons.mpr ⟨hitem, hmore⟩
    case annotated =>
      refine (ih.atomicPattern m).bind fun pattern hpattern => (eat_keeps (.punct .colon) nofun).next fun colon => ?_
      cases colon with
      | none => exact .pure hpattern
      | some colon =>
        refine ((typesKeep g n).type m).bind fun written hwritten => .pure ?_
        exact List.forall_mem_cons.mpr
          ⟨hpattern.span.merge hwritten.span, List.forall_mem_append.mpr ⟨hpattern, hwritten⟩⟩

theorem params_keeps (g : Sites) (n m : Nat) : (params n).Keeps g m fun ps => ∀ p ∈ ps, p.Fits g := by
  induction n with
  | zero => exact .pure nofun
  | succ n ih =>
    have hparam : (do
        let p ← atomicPattern n
        let ps ← params n
        return p :: ps : Parser (List Pattern)).Keeps g m fun ps => ∀ p ∈ ps, p.Fits g :=
      ((patternsKeep g n).atomicPattern m).bind fun p hp => ih.bind fun ps hps =>
        .pure (List.forall_mem_cons.mpr ⟨hp, hps⟩)
    refine .getBind fun s hs => ?_
    split
    · exact .ite (fun _ => .pure nofun) fun _ => hparam
    · exact .ite (fun _ => .pure nofun) fun _ => hparam
    · exact .pure nofun

end Parser
end ScriptAnalyzer

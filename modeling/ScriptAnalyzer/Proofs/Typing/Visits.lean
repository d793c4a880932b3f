import ScriptAnalyzer.Proofs.Syntax.Places
import ScriptAnalyzer.Proofs.Typing.Outline

/-!
The way of the checker through an expression: which names it looks up in which scope, and which names it
brings into scope. The way says nothing about types.
-/

namespace ScriptAnalyzer

namespace LetHead

/-- The names that can be used in the right-hand side. -/
def early (head : LetHead) : List Ident :=
  if head.isFunction && head.isRec then head.name?.toList else []

/-- The names that come into scope behind the right-hand side. -/
def late (head : LetHead) : List Ident :=
  if head.isFunction then if head.isRec then [] else head.name?.toList
  else head.pattern.boundNames

end LetHead

namespace CheckerState

/-- A name that starts with no binder means a symbol of an entity or of a static member. -/
inductive Finds (o : CheckerState) : LongIdent → Symbol → Prop
  | whole {name : LongIdent} {path : String} {e : Entity} :
    o.entity? name.segments = some path → o.entities.find? path = some e → Finds o name e.symbol
  /-- A leading part of the name of an entity. -/
  | part {name whole : LongIdent} {path : String} {e : Entity} :
    o.entity? whole.segments = some path → name.parts <+: whole.parts →
    o.entities.find? (name.segments.foldl qualify (pathBefore path whole.render)) = some e →
    Finds o name e.symbol
  | inner {name outer : LongIdent} {last : Ident} {path : String} {e : Entity} :
    o.entity? outer.segments = some path → name.parts = outer.parts ++ [last] →
    o.entities.find? (path ++ "." ++ last.text) = some e → Finds o name e.symbol
  | member {name outer : LongIdent} {last : Ident} {path : String} {e : Entity} {m : Member} :
    o.entity? outer.segments = some path → name.parts = outer.parts ++ [last] →
    o.entities.find? path = some e → e.staticMember? last.text = some m → Finds o name (m.symbol path)
  | open {name : LongIdent} {owner : String} {m : Member} :
    o.memberOf? name.head.text o.containers = some (owner, m) → name.tail = [] →
    Finds o name (m.symbol owner)

end CheckerState

/-- The dotted name that the expression spells, up to the last name that is there. -/
def Expr.dotted? : Expr → Option LongIdent
  | .member _ target _ none => target.longName?
  | e => e.longName?

section

variable (L : Landmark → Prop)

/-- Brings names into scope, one after the other, with the numbers of their binders. Names in types may
be looked up meanwhile. The landmarks on the way are such as `L` says. -/
inductive Enters (visible : Span) (ofModule : Bool) :
    List Ident → List Nat → CheckerState → CheckerState → Prop
  | nil (o : CheckerState) : Enters visible ofModule [] [] o o
  | note {names : List Ident} {is : List Nat} {o o' : CheckerState} {n : Ident} {symbol : Symbol} :
    L (.label n) → o.entities.Knows symbol → Enters visible ofModule names is (o.note n.span symbol) o' →
    Enters visible ofModule names is o o'
  | skip {n : Ident} {names : List Ident} {is : List Nat} {o o' : CheckerState} :
    Enters visible ofModule names is o o' → Enters visible ofModule (n :: names) is o o'
  | bind {n : Ident} {names : List Ident} {is : List Nat} {o o' : CheckerState} {b : Binder} :
    L (.binding n) → b.name = (if ofModule then o.qualified n.text else n.text) →
    b.simpleName = n.text → b.span = n.span → b.used = false →
    Enters visible ofModule names is (o.enter b visible) o' →
    Enters visible ofModule (n :: names) (o.binders.size :: is) o o'

/-- The way through expressions. Behind a function and behind a binding the scope is what it was in
front of them. -/
inductive Visits : List Expr → CheckerState → CheckerState → Prop
  | nil (o : CheckerState) : Visits [] o o
  | skip {e : Expr} {es : List Expr} {o o' : CheckerState} : Visits es o o' → Visits (e :: es) o o'
  | note {es : List Expr} {o o' : CheckerState} {n : Ident} {symbol : Symbol} :
    L (.label n) → o.entities.Knows symbol → Visits es (o.note n.span symbol) o' → Visits es o o'
  | plain {e : Expr} {es : List Expr} {o o' : CheckerState} :
    e.isPlain = true → Visits (e.children ++ es) o o' → Visits (e :: es) o o'
  | use {n : Ident} {es : List Expr} {i : Nat} {o o' : CheckerState} :
    L (.use n) → o.binder? n.text = some i → Visits es (o.useBinder i n.span) o' →
    Visits (.ident n :: es) o o'
  | find {e : Expr} {es : List Expr} {written name : LongIdent} {symbol : Symbol}
      {o o' : CheckerState} :
    e.dotted? = some written → name.parts <+: written.parts → o.binder? name.head.text = none →
    o.Finds name symbol → Visits (e :: es) (o.note name.last.span symbol) o' → Visits (e :: es) o o'
  /-- A member of an entity. -/
  | access {span dot : Span} {target : Expr} {name : Option Ident} {es : List Expr} {path : String}
      {o o' : CheckerState} :
    Visits es (o.access ⟨dot, name.map (·.span), span, .entity path⟩) o' →
    Visits (.member span target dot name :: es) o o'
  /-- A member of a value. -/
  | accessValue {span dot : Span} {target : Expr} {name : Option Ident} {es : List Expr} {t : Ty}
      {o o₁ o' : CheckerState} :
    Visits [target] o o₁ → Visits es (o₁.access ⟨dot, name.map (·.span), span, .value t⟩) o' →
    Visits (.member span target dot name :: es) o o'
  | accessMember {span dot : Span} {target : Expr} {name : Ident} {es : List Expr} {t : Ty}
      {symbol : Symbol} {o o₁ o' : CheckerState} :
    Visits [target] o o₁ → o₁.entities.Knows symbol →
    Visits es ((o₁.access ⟨dot, some name.span, span, .value t⟩).note name.span symbol) o' →
    Visits (.member span target dot (some name) :: es) o o'
  | lambda {span : Span} {params : List Pattern} {body : Expr} {es : List Expr} {is : List Nat}
      {o o₁ o₂ o' : CheckerState} :
    Enters L body.span false (Pattern.boundNamesOfAll params) is o o₁ → Visits [body] o₁ o₂ →
    Visits es { o₂ with scope := o.scope } o' → Visits (.lambda span params body :: es) o o'
  | letIn {span : Span} {head : LetHead} {value body : Expr} {es : List Expr}
      {early own late : List Nat} {scheme : Scheme} {o o₁ o₂ o₃ o₄ o₅ o' : CheckerState} :
    Enters L ⟨head.span.start, body.span.stop⟩ false head.early early o o₁ →
    Enters L value.span false (Pattern.boundNamesOfAll head.params) own o₁ o₂ →
    Visits [value] o₂ o₃ →
    Enters L ⟨head.span.stop, body.span.stop⟩ false head.late late
      (({ o₃ with scope := o₁.scope } : CheckerState).settle early scheme) o₄ →
    Visits [body] o₄ o₅ → Visits es { o₅ with scope := o.scope } o' →
    Visits (.letIn span head value body :: es) o o'

/-- The way through a binding with the right-hand side `value`, and the binders that it leaves in
scope. -/
inductive LetHead.Visited (head : LetHead) (value : Expr) (stop : Nat) (ofModule : Bool) :
    List Nat → CheckerState → CheckerState → Prop
  | intro {early own late : List Nat} {scheme : Scheme} {o o₁ o₂ o₃ o' : CheckerState} :
    Enters L ⟨head.span.start, stop⟩ ofModule head.early early o o₁ →
    Enters L value.span false (Pattern.boundNamesOfAll head.params) own o₁ o₂ →
    Visits L [value] o₂ o₃ →
    Enters L ⟨head.span.stop, stop⟩ ofModule head.late late
      (({ o₃ with scope := o₁.scope } : CheckerState).settle early scheme) o' →
    head.Visited value stop ofModule (early ++ late) o o'

end

namespace Enters

variable {L : Landmark → Prop} {visible : Span} {ofModule : Bool} {names names' : List Ident}
variable {is is' : List Nat} {o o₁ o' : CheckerState}

theorem append (h : Enters L visible ofModule names is o o₁)
    (h' : Enters L visible ofModule names' is' o₁ o') :
    Enters L visible ofModule (names ++ names') (is ++ is') o o' := by
  induction h with
  | nil => exact h'
  | note hlabel hknows _ ih => exact .note hlabel hknows (ih h')
  | skip _ ih => exact .skip (ih h')
  | bind hmark hname hsimple hspan hused _ ih => exact .bind hmark hname hsimple hspan hused (ih h')

theorem skipAll (names : List Ident) (o : CheckerState) : Enters L visible ofModule names [] o o := by
  induction names with
  | nil => exact .nil o
  | cons n names ih => exact .skip ih

theorem entities (h : Enters L visible ofModule names is o o') : o'.entities = o.entities := by
  induction h with
  | nil => rfl
  | note _ _ _ ih | skip _ ih | bind _ _ _ _ _ _ ih => exact ih

end Enters

theorem CheckerState.entities_settle (o : CheckerState) (is : List Nat) (scheme : Scheme) :
    (o.settle is scheme).entities = o.entities := by
  unfold CheckerState.settle
  induction is generalizing o with
  | nil => rfl
  | cons i is ih => exact ih _

namespace Visits

variable {L : Landmark → Prop} {es : List Expr} {o o' : CheckerState}

theorem entities (h : Visits L es o o') : o'.entities = o.entities := by
  induction h with
  | nil => rfl
  | skip _ ih | note _ _ _ ih | plain _ _ ih | use _ _ _ ih | find _ _ _ _ _ ih | access _ ih => exact ih
  | accessValue _ _ ih₁ ih₂ => exact ih₂.trans ih₁
  | accessMember _ _ _ ih₁ ih₂ => exact ih₂.trans ih₁
  | lambda henters _ _ ih₁ ih₂ => exact ih₂.trans (ih₁.trans henters.entities)
  | letIn hearly hown _ hlate _ _ ih₁ ih₂ ih₃ =>
    refine ih₃.trans (ih₂.trans (hlate.entities.trans ?_))
    rw [CheckerState.entities_settle]
    exact ih₁.trans (hown.entities.trans hearly.entities)

/-- Expressions leave the scope as it is. -/
theorem scope (h : Visits L es o o') : o'.scope = o.scope := by
  induction h with
  | nil => rfl
  | skip _ ih | note _ _ _ ih | plain _ _ ih | use _ _ _ ih | find _ _ _ _ _ ih | access _ ih => exact ih
  | accessValue _ _ ih₁ ih₂ => exact ih₂.trans ih₁
  | accessMember _ _ _ ih₁ ih₂ => exact ih₂.trans ih₁
  | lambda _ _ _ _ ih => exact ih
  | letIn _ _ _ _ _ _ _ _ ih => exact ih

end Visits

/-- Whatever is visited from `o'` on can be visited from `o` on with `es` in front of it. -/
def Leads (L : Landmark → Prop) (es : List Expr) (o o' : CheckerState) : Prop :=
  ∀ rest o'', Visits L rest o' o'' → Visits L (es ++ rest) o o''

namespace Leads

variable {L : Landmark → Prop} {e : Expr} {es fs : List Expr} {o o₁ o' : CheckerState}

theorem refl (L : Landmark → Prop) (o : CheckerState) : Leads L [] o o := fun _ _ h => h

theorem trans (h : Leads L es o o₁) (h' : Leads L fs o₁ o') : Leads L (es ++ fs) o o' := by
  intro rest o'' hrest
  rw [List.append_assoc]
  exact h _ _ (h' _ _ hrest)

theorem visits (h : Leads L es o o') : Visits L es o o' := by
  have hes := h [] o' (.nil o')
  rwa [List.append_nil] at hes

theorem skip (h : Leads L [] o o') (es : List Expr) : Leads L es o o' := by
  intro rest o'' hrest
  induction es with
  | nil => exact h _ _ hrest
  | cons e es ih => exact .skip ih

theorem plain (hplain : e.isPlain = true) (h : Leads L e.children o o') : Leads L [e] o o' :=
  fun rest _ hrest => .plain hplain (h rest _ hrest)

theorem note {n : Ident} {symbol : Symbol} (hlabel : L (.label n)) (hknows : o.entities.Knows symbol) :
    Leads L [] o (o.note n.span symbol) :=
  fun _ _ hrest => .note hlabel hknows hrest

end Leads

/-- Names in types or behind `open`, looked up one after the other. -/
inductive Notes (L : Landmark → Prop) : CheckerState → CheckerState → Prop
  | refl (o : CheckerState) : Notes L o o
  | note {o o' : CheckerState} {n : Ident} {symbol : Symbol} :
    L (.label n) → o.entities.Knows symbol → Notes L (o.note n.span symbol) o' → Notes L o o'

namespace Notes

variable {L : Landmark → Prop} {o o₁ o' : CheckerState}

theorem trans (h : Notes L o o₁) (h' : Notes L o₁ o') : Notes L o o' := by
  induction h with
  | refl => exact h'
  | note hlabel hknows _ ih => exact .note hlabel hknows (ih h')

theorem leads (h : Notes L o o') : Leads L [] o o' := by
  induction h with
  | refl o => exact .refl L o
  | note hlabel hknows _ ih => exact (Leads.note hlabel hknows).trans ih

theorem scope (h : Notes L o o') : o'.scope = o.scope := by
  induction h with
  | refl => rfl
  | note _ _ _ ih => exact ih

theorem entities (h : Notes L o o') : o'.entities = o.entities := by
  induction h with
  | refl => rfl
  | note _ _ _ ih => exact ih

theorem enters {visible : Span} {ofModule : Bool} (h : Notes L o o') :
    Enters L visible ofModule [] [] o o' := by
  induction h with
  | refl o => exact .nil o
  | note hlabel hknows _ ih => exact .note hlabel hknows ih

end Notes

namespace Checker

variable {α β : Type} {L : Landmark → Prop} {es fs : List Expr}

/-- The outlines in front of the checker and behind it are related. -/
def Moves (p : Checker α) (R : CheckerState → CheckerState → Prop) : Prop :=
  ∀ s, p.Yields s fun _ s' => R s.outline s'.outline

theorem Quiet.notes {p : Checker α} (h : Quiet p) : Moves p (Notes L) := fun s =>
  (h s).mono fun _ _ h' => h' ▸ .refl _

theorem Quiet.leads {p : Checker α} (h : Quiet p) : Moves p (Leads L []) := fun s =>
  (h s).mono fun _ _ h' => h' ▸ .refl L _

theorem notes_bind {p : Checker α} {f : α → Checker β} (hp : Moves p (Notes L))
    (hf : ∀ a, Moves (f a) (Notes L)) : Moves (p >>= f) (Notes L) := fun s =>
  (hp s).bind fun a s₁ h₁ => (hf a s₁).mono fun _ _ => h₁.trans

theorem leads_bind {p : Checker α} {f : α → Checker β} (hp : Moves p (Leads L es))
    (hf : ∀ a, Moves (f a) (Leads L fs)) : Moves (p >>= f) (Leads L (es ++ fs)) := fun s =>
  (hp s).bind fun a s₁ h₁ => (hf a s₁).mono fun _ _ => h₁.trans

/-- A quiet part behind the way through expressions. -/
theorem leads_then {p : Checker α} {f : α → Checker β} (hp : Moves p (Leads L es))
    (hf : ∀ a, Quiet (f a)) : Moves (p >>= f) (Leads L es) := by
  simpa using leads_bind hp fun a => (hf a).leads

/-! Annotations -/

theorem mentionSegments_notes (before : String) {parts : List Ident} (h : ∀ n ∈ parts, L (.label n)) :
    Moves (mentionSegments before parts) (Notes L) := by
  induction parts generalizing before with
  | nil => exact (quiet_pure _).notes
  | cons part parts ih =>
    obtain ⟨hpart, hparts⟩ := List.forall_mem_cons.mp h
    intro s
    simp only [mentionSegments, yields_bind, yields_get]
    split
    case h_1 e he =>
      change (mentionSegments (qualify before part.text) parts).Yields (s.note part.span e.symbol)
        fun _ s' => Notes L s.outline s'.outline
      refine (ih _ hparts _).mono fun _ s' h' => ?_
      exact .note hpart (.entity (Entities.mem_of_find? he).1) h'
    case h_2 => exact ih _ hparts s

theorem entityType_notes {name : LongIdent} (h : ∀ n ∈ name.parts, L (.label n)) :
    Moves (entityType name) (Notes L) := by
  intro s
  simp only [entityType, yields_bind, yields_get]
  split
  · exact (mentionSegments_notes _ h s).mono fun _ _ h' => h'
  · exact .refl _

theorem namedType_notes {name : LongIdent} (h : ∀ n ∈ name.parts, L (.label n)) :
    Moves (namedType name) (Notes L) := by
  unfold namedType
  dsimp only
  split
  · exact (quiet_pure _).notes
  · split
    · exact (quiet_fresh.bind fun _ => quiet_pure _).notes
    · intro s
      simp only [abbreviation?, yields_bind, yields_get, yields_pure]
      split
      · exact .refl _
      · exact entityType_notes h s

mutual

theorem annotation_notes (t : TypeExpr) (h : ∀ n ∈ t.names, L (.label n)) :
    Moves ( annotation t) (Notes L) := by
  match t with
  | .named _ name => exact namedType_notes h
  | .var _ name => exact (quiet_typeVariable _).notes
  | .app _ argument ctor =>
    refine notes_bind (annotation_notes argument fun n hn => h n (List.mem_append_left _ hn)) fun _ => ?_
    exact (quiet_constructedType _ _).notes
  | .array _ element => exact notes_bind (annotation_notes element h) fun _ => (quiet_pure _).notes
  | .function _ domain codomain =>
    refine notes_bind (annotation_notes domain fun n hn => h n (List.mem_append_left _ hn)) fun _ => ?_
    refine notes_bind (annotation_notes codomain fun n hn => h n (List.mem_append_right _ hn)) fun _ => ?_
    exact (quiet_pure _).notes
  | .tuple _ items => exact notes_bind (annotations_notes items h) fun _ => (quiet_pure _).notes
  | .error _ => exact (quiet_pure _).notes

theorem annotations_notes (ts : List TypeExpr) (h : ∀ n ∈ TypeExpr.namesOfAll ts, L (.label n)) :
    Moves (annotations ts) (Notes L) := by
  match ts with
  | [] => exact (quiet_pure _).notes
  | t :: ts =>
    refine notes_bind (annotation_notes t fun n hn => h n (List.mem_append_left _ hn)) fun _ => ?_
    refine notes_bind (annotations_notes ts fun n hn => h n (List.mem_append_right _ hn)) fun _ => ?_
    exact (quiet_pure _).notes

end

/-! Patterns -/

theorem labels_of_landmarks {t : TypeExpr} (h : ∀ m ∈ t.landmarks, L m) : ∀ n ∈ t.names, L (.label n) :=
  fun _ hn => h _ (List.mem_map_of_mem hn)

variable {visible : Span} {ofModule : Bool}

theorem bind_enters {name : Ident} (h : L (.binding name)) (scheme : Scheme) (params : List String)
    (s : CheckerState) :
    (bind name scheme params visible ofModule).Yields s fun i s' =>
      Enters L visible ofModule [name] [i] s.outline s'.outline := by
  let b : Binder :=
    { name := if ofModule then s.qualified name.text else name.text
      simpleName := name.text, scheme, params, span := name.span }
  have hnil : Enters L visible ofModule [] [] (s.outline.enter b visible) (s.enter b visible).outline :=
    .nil _
  exact Enters.bind h rfl rfl rfl rfl hnil

theorem enters_bind {p : Checker α} {f : α → Checker (List Nat)} {names : List Ident}
    {s : CheckerState} (hp : Moves p (Notes L))
    (hf : ∀ a s', (f a).Yields s' fun is s'' =>
      Enters L visible ofModule names is s'.outline s''.outline) :
    (p >>= f).Yields s fun is s' => Enters L visible ofModule names is s.outline s'.outline :=
  (hp s).bind fun a s₁ h₁ => (hf a s₁).mono fun _ _ h₂ => h₁.enters.append h₂

mutual

theorem bindPattern_enters (p : Pattern) (h : ∀ m ∈ p.landmarks, L m) (t : Ty) (s : CheckerState) :
    (bindPattern visible ofModule p t).Yields s fun is s' =>
      Enters L visible ofModule p.boundNames is s.outline s'.outline := by
  match p with
  | .named _ name => exact bind_enters (h _ List.mem_cons_self) (.mono t) [] s
  | .wildcard _ | .error _ => exact .nil _
  | .unit span => exact enters_bind (quiet_expect _ _ _).notes fun _ s' => .nil _
  | .tuple span items =>
    refine enters_bind (quiet_freshAll items).notes fun parts s₁ => ?_
    refine enters_bind (quiet_expect _ _ _).notes fun _ s₂ => ?_
    exact bindPatterns_enters items h parts s₂
  | .typed span inner written =>
    obtain ⟨hinner, hwritten⟩ := List.forall_mem_append.mp h
    refine enters_bind (annotation_notes written (labels_of_landmarks hwritten)) fun annotated s₁ => ?_
    refine enters_bind (quiet_expect _ _ _).notes fun _ s₂ => ?_
    exact bindPattern_enters inner hinner annotated s₂

theorem bindPatterns_enters (ps : List Pattern) (h : ∀ m ∈ Pattern.landmarksOfAll ps, L m)
    (ts : List Ty) (s : CheckerState) :
    (bindPatterns visible ofModule ps ts).Yields s fun is s' =>
      Enters L visible ofModule (Pattern.boundNamesOfAll ps) is s.outline s'.outline := by
  match ps, ts with
  | [], _ => exact .nil _
  | p :: ps, [] => exact .skipAll _ _
  | p :: ps, t :: ts =>
    obtain ⟨hp, hps⟩ := List.forall_mem_append.mp h
    simp only [bindPatterns, yields_bind, yields_pure]
    refine (bindPattern_enters p hp t s).mono fun is s₁ h₁ => ?_
    exact (bindPatterns_enters ps hps ts s₁).mono fun is' s₂ h₂ => h₁.append h₂

end

theorem bindParams_enters {ps : List Pattern} (h : ∀ m ∈ Pattern.landmarksOfAll ps, L m)
    (expected : Option Ty) (s : CheckerState) :
    (bindParams visible ps expected).Yields s fun _ s' => ∃ is,
      Enters L visible false (Pattern.boundNamesOfAll ps) is s.outline s'.outline := by
  induction ps generalizing expected s with
  | nil => exact ⟨[], .nil _⟩
  | cons p ps ih =>
    obtain ⟨hp, hps⟩ := List.forall_mem_append.mp h
    have hrest (t : Ty) (result? : Option Ty) (s₁ : CheckerState) (h₁ : s₁.outline = s.outline) :
        (bindParamsFrom visible p ps t result?).Yields s₁ fun _ s' => ∃ is,
          Enters L visible false (Pattern.boundNamesOfAll (p :: ps)) is s.outline s'.outline := by
      simp only [bindParamsFrom, yields_bind, yields_pure]
      refine (bindPattern_enters p hp t s₁).mono fun is s₂ h₂ => ?_
      refine (ih hps result? s₂).mono fun _ s₃ h₃ => ?_
      obtain ⟨is', h₃⟩ := h₃
      exact ⟨is ++ is', h₁ ▸ h₂.append h₃⟩
    unfold bindParams
    split
    · exact (quiet_shallow _).first fun ret s₁ h₁ => hrest _ _ s₁ h₁
    · exact quiet_fresh.first fun t s₁ h₁ => hrest t none s₁ h₁

end Checker
end ScriptAnalyzer

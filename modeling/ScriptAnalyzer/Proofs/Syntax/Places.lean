import ScriptAnalyzer.Proofs.Syntax.Landmarks

/-!
Where the parts of an expression stand: the names in it follow one another, and the part of the text
in which a bound name can be used ends in front of the next name behind it.
-/

namespace ScriptAnalyzer

/-- A place between two tokens: what stands in front of it ends at `stop` at the latest, and names
behind it start at `next` at the earliest. -/
structure Cut where
  stop : Nat
  next : Nat

namespace Cut

instance : LE Cut := ⟨fun a b => a.stop ≤ b.stop ∧ a.next ≤ b.next⟩

theorem le_refl (a : Cut) : a ≤ a := ⟨Nat.le_refl _, Nat.le_refl _⟩

theorem le_trans {a b c : Cut} (h : a ≤ b) (h' : b ≤ c) : a ≤ c :=
  ⟨Nat.le_trans h.1 h'.1, Nat.le_trans h.2 h'.2⟩

end Cut

def Place.cut (p : Place) : Cut := ⟨p.stop, p.next⟩

theorem ReadsOff.cut_le {ms : List Landmark} {p p' : Place} (h : ReadsOff ms p p') : p.cut ≤ p'.cut :=
  ⟨h.stop_le, h.next_le⟩

/-- The name that stands for a value there, by itself or behind a dot. -/
def Landmark.named : Landmark → Option Ident
  | use n | member n => some n
  | binding _ | dot _ | label _ => none

theorem Landmark.source_of_named {m : Landmark} {n : Ident} (h : m.named = some n) :
    m.source = n.source := by
  cases m <;> simp_all [named, source]

/-- Types hold labels only. -/
theorem TypeExpr.filterMap_landmarks {α : Type} {f : Landmark → Option α} (hf : ∀ n, f (.label n) = none)
    (t : TypeExpr) : t.landmarks.filterMap f = [] := by
  rw [landmarks, List.filterMap_map]
  exact List.filterMap_eq_nil_iff.mpr fun n _ => hf n

theorem TypeExpr.named_landmarks (t : TypeExpr) : t.landmarks.filterMap Landmark.named = [] :=
  t.filterMap_landmarks fun _ => rfl

namespace Pattern

mutual

theorem named_landmarks : (p : Pattern) → p.landmarks.filterMap Landmark.named = []
  | named _ _ => by simp [landmarks, Landmark.named]
  | wildcard _ | unit _ | error _ => by simp [landmarks]
  | tuple _ items => by rw [landmarks, named_landmarksOfAll items]
  | typed _ inner t => by
    rw [landmarks, List.filterMap_append, named_landmarks inner, t.named_landmarks, List.nil_append]

theorem named_landmarksOfAll : (ps : List Pattern) →
    (landmarksOfAll ps).filterMap Landmark.named = []
  | [] => by simp [landmarksOfAll]
  | p :: ps => by
    rw [landmarksOfAll, List.filterMap_append, named_landmarks p, named_landmarksOfAll ps,
      List.nil_append]

end

end Pattern

theorem LetHead.named_landmarks (head : LetHead) :
    head.landmarks.filterMap Landmark.named = [] := by
  rw [landmarks, List.filterMap_append, List.filterMap_append, head.pattern.named_landmarks,
    Pattern.named_landmarksOfAll]
  cases head.returnType with
  | none => rfl
  | some t => simpa using t.named_landmarks

namespace Expr

/-- The names in the expression that stand for values. -/
def names (e : Expr) : List Ident := e.landmarks.filterMap Landmark.named

/-- Whether the names in the expression are those in its children. -/
def isPlain : Expr → Bool
  | ident _ | member _ _ _ _ | lambda _ _ _ | letIn _ _ _ _ => false
  | _ => true

theorem names_ident (n : Ident) : (ident n).names = [n] := rfl

theorem names_member (span dot : Span) (target : Expr) (name : Option Ident) :
    (member span target dot name).names = target.names ++ name.toList := by
  rw [names, landmarks, List.filterMap_append]
  cases name <;> rfl

theorem names_lambda (span : Span) (params : List Pattern) (body : Expr) :
    (lambda span params body).names = body.names := by
  rw [names, landmarks, List.filterMap_append, Pattern.named_landmarksOfAll, List.nil_append, names]

theorem names_letIn (span : Span) (head : LetHead) (value body : Expr) :
    (letIn span head value body).names = value.names ++ body.names := by
  rw [names, landmarks, List.filterMap_append, List.filterMap_append, head.named_landmarks,
    List.nil_append, names, names]

section

variable {α : Type} {f : Landmark → Option α}

theorem filterMap_landmarksOfAll (f : Landmark → Option α) (es : List Expr) :
    (landmarksOfAll es).filterMap f = es.flatMap fun e => e.landmarks.filterMap f := by
  rw [landmarksOfAll_eq, List.filterMap_flatMap]

theorem filterMap_landmarksOfFields (hf : ∀ n, f (.label n) = none) (fields : List (Ident × Expr)) :
    (landmarksOfFields fields).filterMap f =
      (fields.map (·.2)).flatMap fun e => e.landmarks.filterMap f := by
  rw [landmarksOfFields_eq, List.filterMap_flatMap, List.flatMap_map]
  simp [hf]

/-- A plain expression has no landmarks of its own but labels. -/
theorem filterMap_landmarks_of_isPlain (hf : ∀ n, f (.label n) = none) {e : Expr}
    (hplain : e.isPlain = true) :
    e.landmarks.filterMap f = e.children.flatMap fun c => c.landmarks.filterMap f := by
  cases e with
  | ident _ | member _ _ _ _ | lambda _ _ _ | letIn _ _ _ _ => cases hplain
  | conditional _ _ _ elseBranch => cases elseBranch <;> simp [landmarks, children]
  | call _ callee args _ => simp [landmarks, children, ← filterMap_landmarksOfAll]
  | tuple _ items | list _ items => simp [landmarks, children, ← filterMap_landmarksOfAll]
  | record _ fields => simp [landmarks, children, ← filterMap_landmarksOfFields hf]
  | typed _ inner t => simp [landmarks, children, t.filterMap_landmarks hf]
  | _ => simp [landmarks, children]

end

theorem names_of_isPlain {e : Expr} (hplain : e.isPlain = true) :
    e.names = e.children.flatMap names :=
  filterMap_landmarks_of_isPlain (fun _ => rfl) hplain

/-- The names in the expression that stand for values stand inside `span`. -/
def NamesWithin (e : Expr) (span : Span) : Prop :=
  ∀ n ∈ e.names, span.start ≤ n.span.start ∧ n.span.stop ≤ span.stop

theorem NamesWithin.mono {e : Expr} {span span' : Span} (h : e.NamesWithin span)
    (hstart : span'.start ≤ span.start) (hstop : span.stop ≤ span'.stop) : e.NamesWithin span' :=
  fun n hn => ⟨Nat.le_trans hstart (h n hn).1, Nat.le_trans (h n hn).2 hstop⟩

theorem NamesWithin.merge_left {e : Expr} {span : Span} (h : e.NamesWithin span) (other : Span) :
    e.NamesWithin (span.merge other) :=
  h.mono (Nat.min_le_left _ _) (Nat.le_max_left _ _)

theorem NamesWithin.merge_right {e : Expr} {span : Span} (h : e.NamesWithin span) (other : Span) :
    e.NamesWithin (other.merge span) :=
  h.mono (Nat.min_le_right _ _) (Nat.le_max_right _ _)

theorem NamesWithin.of_children {e : Expr} {span : Span} (hplain : e.isPlain = true)
    (h : ∀ c ∈ e.children, c.NamesWithin span) : e.NamesWithin span := by
  intro n hn
  rw [names_of_isPlain hplain] at hn
  obtain ⟨c, hc, hnc⟩ := List.mem_flatMap.mp hn
  exact h c hc n hnc

end Expr

/-- A binding whose right-hand side stands between two cuts, and whose name can be used up to `stop`. -/
structure LetHead.Lies (head : LetHead) (value : Expr) (stop : Nat) (a b : Cut) : Prop where
  params : a.stop ≤ value.span.start
  paramsWithin : value.NamesWithin value.span
  paramsEnd : value.span.stop < b.next
  front : a.stop ≤ head.span.start
  within : value.NamesWithin head.span
  valid : head.span.start ≤ head.span.stop
  behind : b.stop ≤ head.span.stop
  ends : head.span.stop ≤ stop

/-- Expressions one behind the other between two cuts. The body of a function and the scope of a
binding contain the names in them, and end in front of all later names. -/
inductive Lies : List Expr → Cut → Cut → Prop
  | nil {a b : Cut} : a ≤ b → Lies [] a b
  | plain {e : Expr} {es : List Expr} {a b : Cut} :
    e.isPlain = true → Lies (e.children ++ es) a b → Lies (e :: es) a b
  | ident {n : Ident} {es : List Expr} {a m b : Cut} :
    a ≤ m → a.next ≤ n.span.start → n.span.stop ≤ m.stop → Lies es m b → Lies (.ident n :: es) a b
  | member {span dot : Span} {target : Expr} {name : Option Ident} {es : List Expr} {a m k b : Cut} :
    Lies [target] a m → m ≤ k → (∀ n ∈ name, m.next ≤ n.span.start ∧ n.span.stop ≤ k.stop) →
    Lies es k b → Lies (.member span target dot name :: es) a b
  | lambda {span : Span} {params : List Pattern} {body : Expr} {es : List Expr} {a m b : Cut} :
    a.stop ≤ body.span.start → body.NamesWithin body.span → body.span.stop < m.next →
    Lies [body] a m → Lies es m b → Lies (.lambda span params body :: es) a b
  | letIn {span : Span} {head : LetHead} {value body : Expr} {es : List Expr} {a m k b : Cut} :
    head.Lies value body.span.stop a m → body.NamesWithin ⟨head.span.stop, body.span.stop⟩ →
    body.span.stop < k.next →
    Lies [value] a m → Lies [body] m k → Lies es k b → Lies (.letIn span head value body :: es) a b

theorem LetHead.Lies.from_earlier {head : LetHead} {value : Expr} {stop : Nat} {a a' b : Cut}
    (h : head.Lies value stop a b) (ha : a' ≤ a) : head.Lies value stop a' b :=
  { h with
    params := Nat.le_trans ha.1 h.params
    front := Nat.le_trans ha.1 h.front }

namespace Lies

variable {es fs : List Expr} {a a' b c : Cut}

theorem le (h : Lies es a b) : a ≤ b := by
  induction h with
  | nil h => exact h
  | plain _ _ ih => exact ih
  | ident h _ _ _ ih => exact Cut.le_trans h ih
  | member _ h _ _ ih₁ ih₂ => exact Cut.le_trans ih₁ (Cut.le_trans h ih₂)
  | lambda _ _ _ _ _ ih₁ ih₂ => exact Cut.le_trans ih₁ ih₂
  | letIn _ _ _ _ _ _ ih₁ ih₂ ih₃ => exact Cut.le_trans (Cut.le_trans ih₁ ih₂) ih₃

theorem from_earlier (h : Lies es a b) (ha : a' ≤ a) : Lies es a' b := by
  induction h generalizing a' with
  | nil h => exact .nil (Cut.le_trans ha h)
  | plain hplain _ ih => exact .plain hplain (ih ha)
  | ident h h₁ h₂ hes _ => exact .ident (Cut.le_trans ha h) (Nat.le_trans ha.2 h₁) h₂ hes
  | member _ h hname hes ih _ => exact .member (ih ha) h hname hes
  | lambda h₁ h₂ h₃ _ hes ih _ => exact .lambda (Nat.le_trans ha.1 h₁) h₂ h₃ (ih ha) hes
  | letIn h₁ h₂ h₃ _ hbody hes ih _ _ =>
    exact .letIn (h₁.from_earlier ha) h₂ h₃ (ih ha) hbody hes

theorem append (h : Lies es a b) (h' : Lies fs b c) : Lies (es ++ fs) a c := by
  induction h with
  | nil h => exact h'.from_earlier h
  | plain hplain _ ih => exact .plain hplain (by simpa using ih h')
  | ident h h₁ h₂ _ ih => exact .ident h h₁ h₂ (ih h')
  | member htarget h hname _ _ ih => exact .member htarget h hname (ih h')
  | lambda h₁ h₂ h₃ hbody _ _ ih => exact .lambda h₁ h₂ h₃ hbody (ih h')
  | letIn h₁ h₂ h₃ hvalue hbody _ _ _ ih => exact .letIn h₁ h₂ h₃ hvalue hbody (ih h')

theorem up_to (h : Lies es a b) (hb : b ≤ c) : Lies es a c := by
  have happend := h.append (.nil hb)
  rwa [List.append_nil] at happend

/-- The expressions behind the first ones stand behind them. -/
theorem drop (h : Lies (es ++ fs) a b) : Lies fs a b := by
  generalize hes : es ++ fs = gs at h
  induction h generalizing es with
  | nil h =>
    obtain ⟨-, rfl⟩ := List.append_eq_nil_iff.mp hes
    exact .nil h
  | @plain e gs a b hplain h ih =>
    cases es with
    | nil =>
      obtain rfl : fs = _ := hes
      exact .plain hplain h
    | cons e' es =>
      obtain ⟨rfl, rfl⟩ := List.cons.inj hes
      exact ih (List.append_assoc ..)
  | ident h h₁ h₂ hgs ih =>
    cases es with
    | nil =>
      obtain rfl : fs = _ := hes
      exact .ident h h₁ h₂ hgs
    | cons e' es => exact (ih (List.cons.inj hes).2).from_earlier h
  | member htarget h hname hgs _ ih =>
    cases es with
    | nil =>
      obtain rfl : fs = _ := hes
      exact .member htarget h hname hgs
    | cons e' es => exact (ih (List.cons.inj hes).2).from_earlier (Cut.le_trans htarget.le h)
  | lambda h₁ h₂ h₃ hbody hgs _ ih =>
    cases es with
    | nil =>
      obtain rfl : fs = _ := hes
      exact .lambda h₁ h₂ h₃ hbody hgs
    | cons e' es => exact (ih (List.cons.inj hes).2).from_earlier hbody.le
  | letIn h₁ h₂ h₃ hvalue hbody hgs _ _ ih =>
    cases es with
    | nil =>
      obtain rfl : fs = _ := hes
      exact .letIn h₁ h₂ h₃ hvalue hbody hgs
    | cons e' es =>
      exact (ih (List.cons.inj hes).2).from_earlier (Cut.le_trans hvalue.le hbody.le)

theorem tail {e : Expr} (h : Lies (e :: fs) a b) : Lies fs a b :=
  drop (show Lies ([e] ++ fs) a b from h)

/-- The names in the expressions stand between the two cuts. -/
theorem names_between (h : Lies es a b) {e : Expr} (he : e ∈ es) :
    e.NamesWithin ⟨a.next, b.stop⟩ := by
  have hfirst {e' : Expr} {es : List Expr} {a m b : Cut} (ham : a ≤ m) (hmb : m ≤ b)
      (he' : e'.NamesWithin ⟨a.next, m.stop⟩) (hes : ∀ e ∈ es, e.NamesWithin ⟨m.next, b.stop⟩) :
      ∀ e ∈ e' :: es, e.NamesWithin ⟨a.next, b.stop⟩ :=
    List.forall_mem_cons.mpr
      ⟨he'.mono (Nat.le_refl _) hmb.1, fun e he => (hes e he).mono ham.2 (Nat.le_refl _)⟩
  induction h generalizing e with
  | nil => cases he
  | plain hplain _ ih =>
    rcases List.mem_cons.mp he with rfl | he
    · exact .of_children hplain fun c hc => ih (List.mem_append_left _ hc)
    · exact ih (List.mem_append_right _ he)
  | ident h h₁ h₂ hes ih =>
    refine hfirst h hes.le (fun n hn => ?_) (fun e he => ih he) e he
    rw [Expr.names_ident, List.mem_singleton] at hn
    exact hn ▸ ⟨h₁, h₂⟩
  | member htarget h hname hes ih ih' =>
    refine hfirst (Cut.le_trans htarget.le h) hes.le (fun n hn => ?_) (fun e he => ih' he) e he
    rw [Expr.names_member, List.mem_append, Option.mem_toList] at hn
    rcases hn with hn | hn
    · obtain ⟨hstart, hstop⟩ := ih List.mem_cons_self n hn
      exact ⟨hstart, Nat.le_trans hstop h.1⟩
    · obtain ⟨hstart, hstop⟩ := hname n hn
      exact ⟨Nat.le_trans htarget.le.2 hstart, hstop⟩
  | lambda _ _ _ hbody hes ih ih' =>
    refine hfirst hbody.le hes.le (fun n hn => ?_) (fun e he => ih' he) e he
    rw [Expr.names_lambda] at hn
    exact ih List.mem_cons_self n hn
  | letIn _ _ _ hvalue hbody hes ih ih' ih'' =>
    refine hfirst (Cut.le_trans hvalue.le hbody.le) hes.le (fun n hn => ?_) (fun e he => ih'' he) e he
    rw [Expr.names_letIn, List.mem_append] at hn
    rcases hn with hn | hn
    · obtain ⟨hstart, hstop⟩ := ih List.mem_cons_self n hn
      exact ⟨hstart, Nat.le_trans hstop hbody.le.1⟩
    · obtain ⟨hstart, hstop⟩ := ih' List.mem_cons_self n hn
      exact ⟨Nat.le_trans hvalue.le.2 hstart, hstop⟩

end Lies
end ScriptAnalyzer

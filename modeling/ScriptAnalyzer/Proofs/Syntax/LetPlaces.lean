import ScriptAnalyzer.Syntax.Tree

namespace ScriptAnalyzer

namespace Expr

theorem preorderOfAll_eq (es : List Expr) : preorderOfAll es = es.flatMap preorder := by
  induction es with
  | nil => rfl
  | cons e es ih => rw [preorderOfAll, ih, List.flatMap_cons]

theorem preorderOfFields_eq (fs : List (Ident × Expr)) :
    preorderOfFields fs = (fs.map (·.2)).flatMap preorder := by
  induction fs with
  | nil => rfl
  | cons f fs ih => rw [preorderOfFields, ih, List.map_cons, List.flatMap_cons]

theorem preorder_eq (e : Expr) : e.preorder = e :: e.children.flatMap preorder := by
  cases e with
  | conditional s i t e => cases e <;> simp [preorder, children]
  | _ => simp [preorder, children, preorderOfAll_eq, preorderOfFields_eq]

/-- What an expression contributes stands in front of what its children contribute. -/
theorem flatMap_preorder {β : Type} (f : Expr → List β) (e : Expr) :
    e.preorder.flatMap f = f e ++ e.children.flatMap fun c => c.preorder.flatMap f := by
  rw [preorder_eq, List.flatMap_cons, List.flatMap_assoc]

def StartsLetAt (place : Nat) : Expr → Prop
  | letIn _ head _ _ => head.span.start = place
  | _ => False

def HasLetAt (e : Expr) (place : Nat) : Prop := ∃ d ∈ e.preorder, d.StartsLetAt place

theorem hasLetAt_iff (e : Expr) (x : Nat) :
    e.HasLetAt x ↔ e.StartsLetAt x ∨ ∃ d ∈ e.children, d.HasLetAt x := by
  simp only [HasLetAt, preorder_eq e, List.mem_cons, List.mem_flatMap, exists_eq_or_imp]
  refine or_congr_right ⟨?_, ?_⟩
  · rintro ⟨d, ⟨c, hc, hd⟩, hstarts⟩
    exact ⟨c, hc, d, hd, hstarts⟩
  · rintro ⟨c, hc, d, hd, hstarts⟩
    exact ⟨d, ⟨c, hc, hd⟩, hstarts⟩

@[simp] theorem hasLetAt_member (s : Span) (e : Expr) (dot : Span) (n : Option Ident) (x : Nat) :
    (member s e dot n).HasLetAt x ↔ e.HasLetAt x := by
  rw [hasLetAt_iff]
  change (False ∨ ∃ d ∈ [e], d.HasLetAt x) ↔ _
  simp

@[simp] theorem hasLetAt_neg (s : Span) (e : Expr) (x : Nat) :
    (neg s e).HasLetAt x ↔ e.HasLetAt x := by
  rw [hasLetAt_iff]
  change (False ∨ ∃ d ∈ [e], d.HasLetAt x) ↔ _
  simp

@[simp] theorem hasLetAt_paren (s : Span) (e : Expr) (x : Nat) :
    (paren s e).HasLetAt x ↔ e.HasLetAt x := by
  rw [hasLetAt_iff]
  change (False ∨ ∃ d ∈ [e], d.HasLetAt x) ↔ _
  simp

@[simp] theorem hasLetAt_typed (s : Span) (e : Expr) (t : TypeExpr) (x : Nat) :
    (typed s e t).HasLetAt x ↔ e.HasLetAt x := by
  rw [hasLetAt_iff]
  change (False ∨ ∃ d ∈ [e], d.HasLetAt x) ↔ _
  simp

@[simp] theorem hasLetAt_lambda (s : Span) (ps : List Pattern) (e : Expr) (x : Nat) :
    (lambda s ps e).HasLetAt x ↔ e.HasLetAt x := by
  rw [hasLetAt_iff]
  change (False ∨ ∃ d ∈ [e], d.HasLetAt x) ↔ _
  simp

@[simp] theorem hasLetAt_app (s : Span) (f a : Expr) (x : Nat) :
    (app s f a).HasLetAt x ↔ f.HasLetAt x ∨ a.HasLetAt x := by
  rw [hasLetAt_iff]
  change (False ∨ ∃ d ∈ [f, a], d.HasLetAt x) ↔ _
  simp

@[simp] theorem hasLetAt_binary (s : Span) (op : BinaryOp) (o : Span) (l r : Expr) (x : Nat) :
    (binary s op o l r).HasLetAt x ↔ l.HasLetAt x ∨ r.HasLetAt x := by
  rw [hasLetAt_iff]
  change (False ∨ ∃ d ∈ [l, r], d.HasLetAt x) ↔ _
  simp

@[simp] theorem hasLetAt_sequential (s : Span) (a b : Expr) (x : Nat) :
    (sequential s a b).HasLetAt x ↔ a.HasLetAt x ∨ b.HasLetAt x := by
  rw [hasLetAt_iff]
  change (False ∨ ∃ d ∈ [a, b], d.HasLetAt x) ↔ _
  simp

@[simp] theorem hasLetAt_letIn (s : Span) (h : LetHead) (v b : Expr) (x : Nat) :
    (letIn s h v b).HasLetAt x ↔ h.span.start = x ∨ v.HasLetAt x ∨ b.HasLetAt x := by
  rw [hasLetAt_iff]
  change (h.span.start = x ∨ ∃ d ∈ [v, b], d.HasLetAt x) ↔ _
  simp

@[simp] theorem hasLetAt_conditional (s : Span) (i t : Expr) (e : Option Expr) (x : Nat) :
    (conditional s i t e).HasLetAt x ↔ i.HasLetAt x ∨ t.HasLetAt x ∨ ∃ b ∈ e, b.HasLetAt x := by
  rw [hasLetAt_iff]
  change (False ∨ ∃ d ∈ i :: t :: e.toList, d.HasLetAt x) ↔ _
  simp

@[simp] theorem hasLetAt_call (s : Span) (f : Expr) (args : List Expr) (p : Span) (x : Nat) :
    (call s f args p).HasLetAt x ↔ f.HasLetAt x ∨ ∃ a ∈ args, a.HasLetAt x := by
  rw [hasLetAt_iff]
  change (False ∨ ∃ d ∈ f :: args, d.HasLetAt x) ↔ _
  simp

@[simp] theorem hasLetAt_tuple (s : Span) (items : List Expr) (x : Nat) :
    (tuple s items).HasLetAt x ↔ ∃ e ∈ items, e.HasLetAt x := by
  rw [hasLetAt_iff]
  change (False ∨ ∃ d ∈ items, d.HasLetAt x) ↔ _
  simp

@[simp] theorem hasLetAt_list (s : Span) (items : List Expr) (x : Nat) :
    (list s items).HasLetAt x ↔ ∃ e ∈ items, e.HasLetAt x := by
  rw [hasLetAt_iff]
  change (False ∨ ∃ d ∈ items, d.HasLetAt x) ↔ _
  simp

@[simp] theorem hasLetAt_record (s : Span) (fields : List (Ident × Expr)) (x : Nat) :
    (record s fields).HasLetAt x ↔ ∃ f ∈ fields, f.2.HasLetAt x := by
  rw [hasLetAt_iff]
  change (False ∨ ∃ d ∈ fields.map (·.2), d.HasLetAt x) ↔ _
  simp only [false_or, List.mem_map]
  constructor
  · rintro ⟨_, ⟨f, hf, rfl⟩, h⟩
    exact ⟨f, hf, h⟩
  · rintro ⟨f, hf, h⟩
    exact ⟨f.2, ⟨f, hf, rfl⟩, h⟩

end Expr

def Binding.HasLetAt (b : Binding) (place : Nat) : Prop :=
  b.span.start = place ∨ b.body.HasLetAt place

theorem Binding.HasLetAt.letIn {b : Binding} {x : Nat} (h : b.HasLetAt x) (s : Span) (scope : Expr) :
    (Expr.letIn s b.toLetHead b.body scope).HasLetAt x := by
  rw [Expr.hasLetAt_letIn]
  exact h.imp_right .inl

namespace Decl

def HasLetAt (d : Decl) (place : Nat) : Prop := ∃ e ∈ d.exprs, e.StartsLetAt place

theorem hasLetAt_ofAll (ds : List Decl) (x : Nat) :
    (∃ e ∈ exprsOfAll ds, e.StartsLetAt x) ↔ ∃ d ∈ ds, d.HasLetAt x := by
  induction ds with
  | nil => simp [exprsOfAll]
  | cons d ds ih => simp [exprsOfAll, HasLetAt, or_and_right, exists_or, ih]

@[simp] theorem hasLetAt_binding (s : Span) (b : Binding) (x : Nat) :
    (binding s b).HasLetAt x ↔ b.body.HasLetAt x := by
  simp [HasLetAt, exprs, Expr.HasLetAt]

@[simp] theorem hasLetAt_expr (s : Span) (e : Expr) (x : Nat) :
    (expr s e).HasLetAt x ↔ e.HasLetAt x := by
  simp [HasLetAt, exprs, Expr.HasLetAt]

@[simp] theorem hasLetAt_module (s : Span) (n : Ident) (ds : List Decl) (x : Nat) :
    (module s n ds).HasLetAt x ↔ ∃ d ∈ ds, d.HasLetAt x := by
  rw [← hasLetAt_ofAll]
  simp [HasLetAt, exprs]

end Decl
end ScriptAnalyzer

import ScriptAnalyzer.Library.Entities
import ScriptAnalyzer.Typing.Application
import ScriptAnalyzer.Proofs.Typing.Unification

namespace ScriptAnalyzer

variable {F : Nat → Prop} {k k' : Nat} {t u : Ty}

namespace Ty

/-- No part of the type is in error, and its variables are among the first `k` and outside `F`. -/
structure Live (F : Nat → Prop) (k : Nat) (t : Ty) : Prop where
  errorFree : t.hasError = false
  vars : ∀ v ∈ t.vars, v < k ∧ ¬F v

theorem Live.mono (h : t.Live F k) (hk : k ≤ k') : t.Live F k' :=
  ⟨h.errorFree, fun v hv => ⟨Nat.lt_of_lt_of_le (h.vars v hv).1 hk, (h.vars v hv).2⟩⟩

theorem hereditary_live (F : Nat → Prop) (k : Nat) : TypeStore.Hereditary (Live F k) :=
  fun _ _ hu ht => ⟨hasError_part ht.errorFree hu, fun v hv => ht.vars v (vars_part hu hv)⟩

theorem live_var {v : Nat} : (var v).Live F k ↔ v < k ∧ ¬F v := by
  refine ⟨fun h => h.vars v (by simp [Ty.vars]), fun h => ⟨rfl, ?_⟩⟩
  simpa [Ty.vars] using h

theorem live_iff_parts (hvar : ∀ v, t ≠ var v) (herror : t ≠ error) :
    t.Live F k ↔ ∀ u ∈ t.parts, u.Live F k := by
  refine ⟨fun h u hu => hereditary_live F k t u hu h, fun h => ⟨?_, fun v hv => ?_⟩⟩
  · have hparts : ∀ u ∈ t.parts, u.hasError = false := fun u hu => (h u hu).errorFree
    cases t with
    | var v => exact absurd rfl (hvar v)
    | named name args => simpa [hasError, hasErrorAll_eq, parts] using hparts
    | function param ret => simpa [hasError, parts] using hparts
    | tuple items => simpa [hasError, hasErrorAll_eq, parts] using hparts
    | error => exact absurd rfl herror
  · rcases mem_vars_iff.mp hv with rfl | ⟨u, hu, hvu⟩
    · exact absurd rfl (hvar v)
    · exact (h u hu).vars v hvu

@[simp] theorem live_named {name : String} {args : List Ty} :
    (named name args).Live F k ↔ ∀ u ∈ args, u.Live F k :=
  live_iff_parts (by simp) (by simp)

@[simp] theorem live_function {param ret : Ty} :
    (function param ret).Live F k ↔ param.Live F k ∧ ret.Live F k := by
  rw [live_iff_parts (by simp) (by simp)]
  simp [parts]

@[simp] theorem live_tuple {items : List Ty} :
    (tuple items).Live F k ↔ ∀ u ∈ items, u.Live F k :=
  live_iff_parts (by simp) (by simp)

@[simp] theorem not_live_error : ¬error.Live F k := fun h => by cases h.errorFree

@[simp] theorem live_atom (name : String) : (atom name).Live F k := by simp [atom]

@[simp] theorem live_int : int.Live F k := live_atom _

@[simp] theorem live_float : float.Live F k := live_atom _

@[simp] theorem live_string : string.Live F k := live_atom _

@[simp] theorem live_bool : bool.Live F k := live_atom _

@[simp] theorem live_char : char.Live F k := live_atom _

@[simp] theorem live_unit : unit.Live F k := live_atom _

@[simp] theorem live_list : (list t).Live F k ↔ t.Live F k := by simp [list]

@[simp] theorem live_array : (array t).Live F k ↔ t.Live F k := by simp [array]

@[simp] theorem live_ofEntityPath (path : String) : (ofEntityPath path).Live F k := live_atom _

@[simp] theorem live_curried {params : List Ty} :
    (curried params t).Live F k ↔ (∀ u ∈ params, u.Live F k) ∧ t.Live F k := by
  induction params with
  | nil => simp [curried]
  | cons param params ih =>
    rw [curried, List.foldr_cons, live_function, ← curried, ih, List.forall_mem_cons, and_assoc]

theorem live_subst {f : Nat → Ty} (ht : t.hasError = false)
    (hf : ∀ v ∈ t.vars, (f v).Live F k) : (t.subst f).Live F k := by
  induction t using parts_induction with
  | ih t ih =>
    have hparts : ∀ u ∈ t.parts, (u.subst f).Live F k :=
      fun u hu => ih u hu (hasError_part ht hu) fun v hv => hf v (vars_part hu hv)
    cases t with
    | var v => exact hf v (by simp [Ty.vars])
    | named name args => simpa [subst, parts, substAll_eq] using hparts
    | function param ret => simpa [subst, parts] using hparts
    | tuple items => simpa [subst, parts, substAll_eq] using hparts
    | error => cases ht

theorem live_of_closed (herror : t.hasError = false) (hvars : t.vars = []) : t.Live F k :=
  ⟨herror, by simp [hvars]⟩

end Ty

/-- The variables of the type that do not stand for any type are live. -/
structure Scheme.Live (F : Nat → Prop) (k : Nat) (scheme : Scheme) : Prop where
  errorFree : scheme.type.hasError = false
  vars : ∀ v ∈ scheme.type.vars, v ∈ scheme.vars ∨ v < k ∧ ¬F v

theorem Scheme.Live.mono {scheme : Scheme} (h : scheme.Live F k) (hk : k ≤ k') : scheme.Live F k' :=
  ⟨h.errorFree, fun v hv =>
    (h.vars v hv).imp_right fun hlive => ⟨Nat.lt_of_lt_of_le hlive.1 hk, hlive.2⟩⟩

theorem Scheme.live_mono (h : t.Live F k) : (Scheme.mono t).Live F k :=
  ⟨h.errorFree, fun v hv => .inr (h.vars v hv)⟩

theorem Ty.mem_freeVars {v : Nat} : v ∈ t.freeVars ↔ v ∈ t.vars := List.mem_eraseDups

theorem Scheme.live_poly (h : t.hasError = false) : (Scheme.poly t).Live F k :=
  ⟨h, fun _ hv => .inl (Ty.mem_freeVars.mpr hv)⟩

structure Overload.Live (F : Nat → Prop) (k : Nat) (o : Overload) : Prop where
  params : ∀ p ∈ o.params, p.type.Live F k
  returnType : o.returnType.Live F k

theorem Overload.Live.mono {o : Overload} (h : o.Live F k) (hk : k ≤ k') : o.Live F k' :=
  ⟨fun p hp => (h.params p hp).mono hk, h.returnType.mono hk⟩

theorem Overload.Live.functionType {o : Overload} (h : o.Live F k) : o.functionType.Live F k := by
  have hparams := h.params
  unfold Overload.functionType
  split
  · simpa using h.returnType
  case h_2 p heq =>
    rw [heq] at hparams
    simpa using ⟨hparams p (by simp), h.returnType⟩
  case h_3 => simpa using ⟨hparams, h.returnType⟩

def MemberKind.Live (F : Nat → Prop) (k : Nat) : MemberKind → Prop
  | .value scheme _ => scheme.Live F k
  | .method _ overloads => ∀ o ∈ overloads, o.Live F k
  | .property _ t | .field t => t.Live F k

theorem MemberKind.Live.mono {m : MemberKind} (h : m.Live F k) (hk : k ≤ k') : m.Live F k' := by
  cases m with
  | value scheme params => exact Scheme.Live.mono h hk
  | method isStatic overloads => exact fun o ho => (h o ho).mono hk
  | property isStatic t => exact Ty.Live.mono h hk
  | field t => exact Ty.Live.mono h hk

structure Entity.Live (F : Nat → Prop) (k : Nat) (e : Entity) : Prop where
  members : ∀ m ∈ e.members, m.kind.Live F k
  constructors : ∀ o ∈ e.constructors, o.Live F k

namespace TypeStore

variable {s s' : TypeStore}

theorem live_shallow (hs : Closed (Ty.Live F k) s) (ht : t.Live F k) : (s.shallow t).Live F k :=
  shallow_all hs.bound ht

theorem live_zonk (hs : Closed (Ty.Live F k) s) (ht : t.Live F k) : (s.zonk t).Live F k := by
  unfold zonk
  induction s.size generalizing t with
  | zero => exact ht
  | succ n ih =>
    refine Ty.live_subst ht.errorFree fun v hv => ?_
    have hvar : (Ty.var v).Live F k := Ty.live_var.mpr (ht.vars v hv)
    cases hb : s.binding? v with
    | none => exact hvar
    | some u => exact ih (hs.bound v u hb hvar)

theorem live_instantiate {scheme : Scheme} (hF : ∀ v, F v → v < s.size)
    (h : scheme.Live F s.size) :
    (s.instantiate scheme).1.Live F (s.size + scheme.vars.length) := by
  refine Ty.live_subst h.errorFree fun v hv => ?_
  cases hi : scheme.vars.idxOf? v with
  | none =>
    have hlive := (h.vars v hv).resolve_left (List.idxOf?_eq_none_iff.mp hi)
    exact Ty.live_var.mpr ⟨by omega, hlive.2⟩
  | some i =>
    have hlt : i < scheme.vars.length := (List.idxOf?_eq_some_iff.mp hi).1
    exact Ty.live_var.mpr ⟨by omega, fun hf => absurd (hF _ hf) (by omega)⟩

theorem closed_of_mono (h : Closed (Ty.Live F k) s) (hk : k ≤ k') (hbelow : s.size ≤ k) :
    Closed (Ty.Live F k') s := by
  refine ⟨h.acyclic, fun v t hv hlive => ?_⟩
  have hlt : v < k := Nat.lt_of_lt_of_le (lt_size_of_bound hv) hbelow
  exact (h.bound v t hv (Ty.live_var.mpr ⟨hlt, (Ty.live_var.mp hlive).2⟩)).mono hk

/-- What was bound stays bound, and the variables `F` stay as they are. -/
structure Develops (F : Nat → Prop) (s s' : TypeStore) : Prop where
  size : s.size ≤ s'.size
  kept : ∀ v t, s.binding? v = some t → s'.binding? v = some t
  frozen : ∀ v, F v → s'.binding? v = s.binding? v

theorem Develops.refl (F : Nat → Prop) (s : TypeStore) : Develops F s s :=
  ⟨Nat.le_refl _, fun _ _ h => h, fun _ _ => rfl⟩

theorem Develops.trans {s'' : TypeStore} (h : Develops F s s') (h' : Develops F s' s'') :
    Develops F s s'' :=
  ⟨h.size.trans h'.size, fun v t hv => h'.kept v t (h.kept v t hv),
    fun v hv => (h'.frozen v hv).trans (h.frozen v hv)⟩

theorem Satisfies.of_develops {σ : Nat → Ty} (h : Satisfies σ s') (hs : Develops F s s') :
    Satisfies σ s :=
  fun v t hv => h v t (hs.kept v t hv)

variable {a b : Ty}

theorem size_unify (s : TypeStore) (a b : Ty) : (s.unify a b).2.size = s.size :=
  size_unifyWith _ a b s

theorem unify_binds (hs : Closed (Ty.Live F s.size) s) (ha : a.Live F s.size)
    (hb : b.Live F s.size) :
    Relation.ReflTransGen (Binds (Ty.Live F s.size)) s (s.unify a b).2 :=
  unifyWith_binds_of_closed (Ty.hereditary_live F s.size) _ hs ha hb

theorem closed_unify (hs : Closed (Ty.Live F s.size) s) (ha : a.Live F s.size)
    (hb : b.Live F s.size) : Closed (Ty.Live F (s.unify a b).2.size) (s.unify a b).2 := by
  rw [size_unify]
  exact closed_of_binds (unify_binds hs ha hb) hs

theorem develops_unify (hs : Closed (Ty.Live F s.size) s) (ha : a.Live F s.size)
    (hb : b.Live F s.size) : Develops F s (s.unify a b).2 := by
  have hbinds := unify_binds hs ha hb
  refine ⟨Nat.le_of_eq (size_unify s a b).symm, (extends_of_binds hbinds).kept, fun v hv => ?_⟩
  exact binding?_of_binds hbinds fun hlive => (Ty.live_var.mp hlive).2 hv

theorem unify_sound {σ : Nat → Ty} (hs : Closed (Ty.Live F s.size) s) (ha : a.Live F s.size)
    (hb : b.Live F s.size) (hok : (s.unify a b).1 = true) (hσ : Satisfies σ (s.unify a b).2) :
    a.subst σ = b.subst σ :=
  unifyWith_sound (Ty.hereditary_live F s.size) Ty.not_live_error
    (fun _ hv => (Ty.live_var.mp hv).1) hs rfl ha hb hok hσ

/-- A variable can always be an atomic type. -/
theorem unifies_atom {v : Nat} {name : String} (h : s.shallow a = .var v) :
    (s.unify a (.atom name)).1 = true := by
  have hatom (n : Nat) : s.shallowWith n (.atom name) = .atom name := by cases n <;> rfl
  have hout : s.occurs v (.atom name) = false := by
    rw [occurs, zonk_eq_subst]
    rfl
  have hheads : s.unifyHeads (unifyWith (s.depthBound a (.atom name))) (.var v) (.atom name) =
      s.bindNew v (.atom name) := by
    simp [Ty.atom, unifyHeads]
  rw [unify, unifyWith, h, shallow, hatom, hheads, bindNew, hout]
  rfl

theorem closed_extend (hs : Closed (Ty.Live F s.size) s) (n : Nat) :
    Closed (Ty.Live F (s.size + n)) (s.extend n) := by
  have hclosed := closed_of_mono hs (Nat.le_add_right s.size n) (Nat.le_refl _)
  refine ⟨hclosed.acyclic.of_binding? (s.binding?_extend n), fun v t hv hlive => ?_⟩
  exact hclosed.bound v t (s.binding?_extend n v ▸ hv) hlive

theorem develops_extend (s : TypeStore) (n : Nat) : Develops F s (s.extend n) :=
  ⟨by rw [size_extend]; omega, fun v _ hv => (s.binding?_extend n v).trans hv,
    fun v _ => s.binding?_extend n v⟩

end TypeStore

end ScriptAnalyzer

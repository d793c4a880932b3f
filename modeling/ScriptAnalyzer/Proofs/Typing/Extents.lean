import Mathlib.Order.Basic
import ScriptAnalyzer.Proofs.Syntax.ValidSpans
import ScriptAnalyzer.Proofs.Token.Spelling
import ScriptAnalyzer.Proofs.Typing.Callees
import ScriptAnalyzer.Proofs.Typing.Provenance
import ScriptAnalyzer.Proofs.Typing.Termination

/-!
What data refers to: type variables by their numbers in the store, binders by their numbers in the
state, and places of the text. In a sound state nothing refers beyond what there is.

Making types equal binds variables of the store only, if the types and the bindings have no others. So
does trying overloads on arguments; each of their parameters is found by its number.
-/

namespace ScriptAnalyzer
namespace TypeStore

variable {s₀ s s' : TypeStore} {a b t : Ty} {n : Nat}

theorem allocates_iff : s.allocates t = true ↔ s.Allocated t := by
  simp [allocates, Allocated]

theorem bindsInside_of_lt {v : Nat} (h : v < s.size) : s.bindsInside v t = true := by
  simp [bindsInside, h]

section Steps

variable {step : Ty → Ty → TypeStore → Bool × TypeStore} {inside : Ty → Ty → TypeStore → Bool}

theorem headsInside_of_parts (ha : s.Allocated a) (hb : s.Allocated b)
    (hparts : a.SameHead b → allInside step inside a.parts b.parts s = true) :
    s.headsInside step inside a b = true := by
  have hvar {v : Nat} (h : s.Allocated (.var v)) (t : Ty) : s.bindsInside v t = true :=
    bindsInside_of_lt (h v (by simp [Ty.vars]))
  unfold headsInside
  split
  case h_1 | h_2 | h_9 => rfl
  case h_3 => rw [hvar ha, Bool.or_true]
  case h_4 => exact hvar ha _
  case h_5 => exact hvar hb _
  case h_6 | h_8 =>
    rw [Bool.or_eq_true, Bool.not_eq_true']
    refine Decidable.or_iff_not_imp_left.mpr fun h => hparts ?_
    simpa [Ty.SameHead] using h
  case h_7 => exact hparts trivial

theorem allInside_of_closed {as bs : List Ty} (hs : Closed s₀.Allocated s) (hsize : s.size = s₀.size)
    (has : ∀ a ∈ as, s₀.Allocated a) (hbs : ∀ b ∈ bs, s₀.Allocated b)
    (hstep : ∀ a b s, Closed s₀.Allocated s → s₀.Allocated a → s₀.Allocated b →
      Relation.ReflTransGen (Binds s₀.Allocated) s (step a b s).2)
    (hinside : ∀ a b s, Closed s₀.Allocated s → s.size = s₀.size → s₀.Allocated a → s₀.Allocated b →
      inside a b s = true) : allInside step inside as bs s = true := by
  induction as generalizing bs s with
  | nil => rfl
  | cons a as ih =>
    cases bs with
    | nil => rfl
    | cons b bs =>
      obtain ⟨ha, has⟩ := List.forall_mem_cons.mp has
      obtain ⟨hb, hbs⟩ := List.forall_mem_cons.mp hbs
      have hbinds := hstep a b s hs ha hb
      have hrest := ih (closed_of_binds hbinds hs) ((extends_of_binds hbinds).size.trans hsize) has hbs
      rw [allInside, hinside a b s hs hsize ha hb, hrest, Bool.or_true, Bool.and_true]

end Steps

theorem unifyInsideWith_of_closed (hs : Closed s₀.Allocated s) (hsize : s.size = s₀.size)
    (ha : s₀.Allocated a) (hb : s₀.Allocated b) : unifyInsideWith n a b s = true := by
  induction n generalizing a b s with
  | zero => rfl
  | succ n ih =>
    have hx : s₀.Allocated (s.shallow a) := shallow_all hs.bound ha
    have hy : s₀.Allocated (s.shallow b) := shallow_all hs.bound hb
    have hpart := hereditary_allocated s₀
    rw [unifyInsideWith]
    refine headsInside_of_parts (fun v hv => hsize ▸ hx v hv) (fun v hv => hsize ▸ hy v hv) fun _ => ?_
    exact allInside_of_closed hs hsize (fun u hu => hpart _ u hu hx) (fun u hu => hpart _ u hu hy)
      (fun a b s hs ha hb => unifyWith_binds_of_closed hpart n hs ha hb) fun a b s => ih

theorem unifyInside_of_closed (hs : Closed s₀.Allocated s) (hsize : s.size = s₀.size)
    (ha : s₀.Allocated a) (hb : s₀.Allocated b) : s.unifyInside a b = true := by
  have hwithin {t : Ty} (ht : s₀.Allocated t) : s.allocates t = true :=
    allocates_iff.mpr fun v hv => hsize ▸ ht v hv
  rw [unifyInside, hwithin ha, hwithin hb, unifyInsideWith_of_closed hs hsize ha hb]
  rfl

theorem unifyInside_of_wellBound (hs : WellBound s.Allocated s) (ha : s.Allocated a)
    (hb : s.Allocated b) : s.unifyInside a b = true :=
  unifyInside_of_closed hs.closed rfl ha hb

/-! Arguments -/

theorem passInside_of_closed {param arg : Ty} (hs : Closed s₀.Allocated s) (hsize : s.size = s₀.size)
    (hparam : s₀.Allocated param) (harg : s₀.Allocated arg) : s.passInside param arg = true := by
  rw [passInside, unifyInside_of_closed hs hsize hparam harg, Bool.or_true]

theorem passAllInside_of_closed {variadic? : Option Ty} {direct : Bool} {params args : List Ty}
    (hs : Closed s₀.Allocated s) (hsize : s.size = s₀.size)
    (hvariadic : ∀ t ∈ variadic?, s₀.Allocated t) (hparams : ∀ t ∈ params, s₀.Allocated t)
    (hargs : ∀ t ∈ args, s₀.Allocated t) : passAllInside variadic? direct params args s = true := by
  induction args generalizing params s with
  | nil => rw [passAllInside]
  | cons arg args ih =>
    obtain ⟨harg, hargs⟩ := List.forall_mem_cons.mp hargs
    have hpass {param : Ty} {params : List Ty} (hparam : s₀.Allocated param)
        (hparams : ∀ t ∈ params, s₀.Allocated t) : (s.passInside param arg &&
          (s.pass param arg).all (passAllInside variadic? direct params args)) = true := by
      rw [passInside_of_closed hs hsize hparam harg, Bool.true_and, Option.all_eq_true]
      intro s₁ h₁
      have hbinds := pass_binds (hereditary_allocated s₀) hs hparam harg h₁
      exact ih (closed_of_binds hbinds hs) ((extends_of_binds hbinds).size.trans hsize) hparams hargs
    cases params with
    | cons param params =>
      obtain ⟨hparam, hparams⟩ := List.forall_mem_cons.mp hparams
      exact hpass hparam hparams
    | nil =>
      unfold passAllInside
      split
      case h_1 => rfl
      case h_2 array =>
        have harray : s₀.Allocated array := hvariadic array rfl
        have helement : s₀.Allocated (array.arrayElement?.getD array) := by
          cases h : array.arrayElement? with
          | none => exact harray
          | some element =>
            exact hereditary_allocated s₀ array element (Ty.mem_parts_of_arrayElement h) harray
        dsimp only
        rw [unifyInside_of_closed hs hsize harray harg, Bool.or_true, Bool.true_and]
        split
        · exact hpass harray nofun
        · exact hpass helement nofun

end TypeStore

namespace Overload

open TypeStore (WellBound)

variable {s : TypeStore} {args : List Ty}

theorem acceptsInside_of_wellBound {o : Overload} (hs : WellBound s.Allocated s)
    (ho : ∀ p ∈ o.params, s.Allocated p.type) (hargs : ∀ t ∈ args, s.Allocated t) :
    o.acceptsInside args s = true := by
  have hvariadic : ∀ t ∈ o.variadic?.map (·.type), s.Allocated t := by
    rintro t ht
    obtain ⟨p, hp, rfl⟩ := Option.map_eq_some_iff.mp ht
    exact ho p (List.mem_of_getLast? (Option.filter_eq_some_iff.mp hp).1)
  have hfixed : ∀ t ∈ (o.params.takeWhile (!·.variadic)).map (·.type), s.Allocated t := by
    rintro t ht
    obtain ⟨p, hp, rfl⟩ := List.mem_map.mp ht
    exact ho p (List.takeWhile_subset _ hp)
  rw [acceptsInside, TypeStore.passAllInside_of_closed hs.closed rfl hvariadic hfixed hargs, Bool.or_true]

theorem selectInside_of_wellBound {overloads : List Overload} (hs : WellBound s.Allocated s)
    (hoverloads : ∀ o ∈ overloads, ∀ p ∈ o.params, s.Allocated p.type)
    (hargs : ∀ t ∈ args, s.Allocated t) : selectInside args s overloads = true := by
  induction overloads with
  | nil => rfl
  | cons o overloads ih =>
    obtain ⟨ho, hoverloads⟩ := List.forall_mem_cons.mp hoverloads
    rw [selectInside, acceptsInside_of_wellBound hs ho hargs, ih hoverloads, Bool.or_true, Bool.and_true]

/-! Parameters by their numbers -/

/-- How many parameters stand in front of a variadic one. -/
def fixedCount (o : Overload) : Nat := (o.params.takeWhile (!·.variadic)).length

/-- Passes arguments to the parameters from number `i` on. A fixed parameter is looked for by its
number; if there is none, that is no answer at all. -/
def passFrom (o : Overload) (direct : Bool) : Nat → List Ty → TypeStore → Option (Option TypeStore)
  | _, [], s => some (some s)
  | i, arg :: args, s => do
    let param? ←
      if i < o.fixedCount then do
        let p ← o.params[i]?
        pure (some p.type)
      else pure (o.variadic?.map fun p =>
        if direct && s.unifies p.type arg then p.type else p.type.arrayElement?.getD p.type)
    match param?.bind (s.pass · arg) with
    | some s => passFrom o direct (i + 1) args s
    | none => some none

/-- Whether the overload accepts arguments, found by the numbers of its parameters. -/
def acceptsByNumber? (o : Overload) (args : List Ty) (s : TypeStore) : Option (Option TypeStore) :=
  if o.acceptsCount args.length then o.passFrom (args.length == o.params.length) 0 args s
  else some none

theorem fixed_getElem {o : Overload} {i : Nat} (h : i < o.fixedCount) : ∃ p, o.params[i]? = some p ∧
    ((o.params.takeWhile (!·.variadic)).map (·.type)).drop i =
      p.type :: ((o.params.takeWhile (!·.variadic)).map (·.type)).drop (i + 1) := by
  have hfixed : i < (o.params.takeWhile (!·.variadic)).length := h
  have hprefix := List.takeWhile_prefix (l := o.params) (!·.variadic)
  have hlt : i < o.params.length := Nat.lt_of_lt_of_le hfixed hprefix.length_le
  refine ⟨o.params[i], List.getElem?_eq_getElem hlt, ?_⟩
  rw [List.drop_eq_getElem_cons (by simpa using hfixed), List.getElem_map, hprefix.getElem hfixed]

theorem passFrom_eq (o : Overload) (direct : Bool) (i : Nat) (args : List Ty) (s : TypeStore) :
    o.passFrom direct i args s = some (s.passAll (o.variadic?.map (·.type)) direct
      (((o.params.takeWhile (!·.variadic)).map (·.type)).drop i) args) := by
  induction args generalizing i s with
  | nil => rw [passFrom, TypeStore.passAll]
  | cons arg args ih =>
    rw [passFrom]
    by_cases hi : i < o.fixedCount
    · obtain ⟨p, hp, hdrop⟩ := fixed_getElem hi
      rw [if_pos hi, hp, hdrop]
      change (match s.pass p.type arg with | some s => _ | none => some none) = _
      rw [TypeStore.passAll]
      cases s.pass p.type arg with
      | none => rfl
      | some s => exact ih (i + 1) s
    · have hnil : ((o.params.takeWhile (!·.variadic)).map (·.type)).drop i = [] :=
        List.drop_of_length_le (by simpa [fixedCount] using hi)
      have hnext : ((o.params.takeWhile (!·.variadic)).map (·.type)).drop (i + 1) = [] :=
        List.drop_of_length_le (by simpa [fixedCount] using Nat.le_succ_of_le (Nat.le_of_not_lt hi))
      rw [if_neg hi, hnil]
      cases hvariadic : o.variadic? with
      | none => rfl
      | some p =>
        simp only [Option.map_some, Option.bind_some, pure_bind, TypeStore.passAll]
        cases s.pass _ arg with
        | none => rfl
        | some s =>
          have hrest := ih (i + 1) s
          rw [hnext, hvariadic] at hrest
          exact hrest

/-- No parameter is looked for by a number that none has. -/
theorem acceptsByNumber_eq (o : Overload) (args : List Ty) (s : TypeStore) :
    o.acceptsByNumber? args s = some (o.accepts args s) := by
  unfold acceptsByNumber? accepts
  split
  · exact passFrom_eq o _ 0 args s
  · rfl

end Overload

/-! Extents -/

/-- How much there is to refer to. -/
structure Extent where
  vars : Nat
  binders : Nat
  bytes : Nat

namespace Extent

instance : Preorder Extent where
  le k k' := k.vars ≤ k'.vars ∧ k.binders ≤ k'.binders ∧ k.bytes ≤ k'.bytes
  le_refl _ := ⟨Nat.le_refl _, Nat.le_refl _, Nat.le_refl _⟩
  le_trans _ _ _ h h' := ⟨h.1.trans h'.1, h.2.1.trans h'.2.1, h.2.2.trans h'.2.2⟩

end Extent

/-- Data that refers to what an extent may have. -/
class Referring (α : Type) where
  Within : Extent → α → Prop
  mono {k k' : Extent} {a : α} : k ≤ k' → Within k a → Within k' a

export Referring (Within)

namespace Referring

variable {α β : Type} {k k' : Extent}

/-- Data that refers to nothing. -/
@[reducible] def nothing : Referring α := ⟨fun _ _ => True, fun _ h => h⟩

instance : Referring Unit := nothing

instance : Referring Bool := nothing

instance : Referring String := nothing

instance : Referring Signature := nothing

instance [Referring α] : Referring (Option α) where
  Within k o := ∀ a ∈ o, Within k a
  mono hk h a ha := mono hk (h a ha)

instance [Referring α] : Referring (List α) where
  Within k as := ∀ a ∈ as, Within k a
  mono hk h a ha := mono hk (h a ha)

instance [Referring α] [Referring β] : Referring (α × β) where
  Within k p := Within k p.1 ∧ Within k p.2
  mono hk h := ⟨mono hk h.1, mono hk h.2⟩

/-- Numbers are those of binders. -/
instance : Referring Nat where
  Within k index := index < k.binders
  mono hk h := Nat.lt_of_lt_of_le h hk.2.1

instance : Referring Span where
  Within k s := s.Inside k.bytes
  mono hk h := ⟨h.ordered, h.inside.trans hk.2.2⟩

instance : Referring Ty where
  Within k t := ∀ v ∈ t.vars, v < k.vars
  mono hk h v hv := Nat.lt_of_lt_of_le (h v hv) hk.1

/-- The variables that stand for any type are no variables of the store. -/
instance : Referring Scheme where
  Within k scheme := ∀ v ∈ scheme.type.vars, v ∈ scheme.vars ∨ v < k.vars
  mono hk h v hv := (h v hv).imp_right fun hlt => Nat.lt_of_lt_of_le hlt hk.1

instance : Referring Overload where
  Within k o := (∀ p ∈ o.params, Within k p.type) ∧ Within k o.returnType
  mono hk h := ⟨fun p hp => mono hk (h.1 p hp), mono hk h.2⟩

instance : Referring Symbol where
  Within k symbol := Within k symbol.span
  mono hk h := mono (α := Option Span) hk h

end Referring

open Referring

variable {α β : Type} [Referring α] [Referring β] {k k' : Extent}

theorem within_cons {a : α} {as : List α} : Within k (a :: as) ↔ Within k a ∧ Within k as :=
  List.forall_mem_cons

theorem within_append {as bs : List α} : Within k (as ++ bs) ↔ Within k as ∧ Within k bs :=
  List.forall_mem_append

theorem within_singleton {a : α} : Within k [a] ↔ Within k a := List.forall_mem_singleton

theorem within_some {a : α} : Within k (some a) ↔ Within k a :=
  ⟨fun h => h a rfl, fun h _ hb => Option.some.inj hb ▸ h⟩

theorem within_none : Within k (none : Option α) := nofun

theorem within_nil : Within k ([] : List α) := nofun

/-! Types -/

namespace Ty

variable {t : Ty}

@[simp] theorem within_var {v : Nat} : Within k (var v) ↔ v < k.vars := by
  simp [Within, Ty.vars]

theorem within_iff_parts (hvar : ∀ v, t ≠ var v) : Within k t ↔ ∀ u ∈ t.parts, Within k u := by
  refine ⟨fun h u hu v hv => h v (vars_part hu hv), fun h v hv => ?_⟩
  rcases mem_vars_iff.mp hv with rfl | ⟨u, hu, hvu⟩
  · exact absurd rfl (hvar v)
  · exact h u hu v hvu

@[simp] theorem within_named {name : String} {args : List Ty} :
    Within k (named name args) ↔ Within k args :=
  within_iff_parts (by simp)

@[simp] theorem within_tuple {items : List Ty} : Within k (tuple items) ↔ Within k items :=
  within_iff_parts (by simp)

@[simp] theorem within_function {param ret : Ty} :
    Within k (function param ret) ↔ Within k param ∧ Within k ret := by
  rw [within_iff_parts (by simp)]
  simp [parts]

@[simp] theorem within_error : Within k error := by simp [Within, Ty.vars]

@[simp] theorem within_atom (name : String) : Within k (atom name) := within_named.mpr within_nil

@[simp] theorem within_list : Within k (list t) ↔ Within k t := within_named.trans within_singleton

@[simp] theorem within_array : Within k (array t) ↔ Within k t := within_named.trans within_singleton

@[simp] theorem within_curried {params : List Ty} :
    Within k (curried params t) ↔ Within k params ∧ Within k t := by
  induction params with
  | nil => exact ⟨fun h => ⟨within_nil, h⟩, And.right⟩
  | cons param params ih =>
    rw [curried, List.foldr_cons, within_function, ← curried, ih, within_cons, and_assoc]

end Ty

theorem Scheme.within_mono {t : Ty} (h : Within k t) : Within k (Scheme.mono t) :=
  fun v hv => .inr (h v hv)

theorem Scheme.within_poly (t : Ty) : Within k (Scheme.poly t) :=
  fun _ hv => .inl (Ty.mem_freeVars.mpr hv)

theorem Overload.within_functionType {o : Overload} (h : Within k o) : Within k o.functionType := by
  obtain ⟨hparams, hret⟩ := h
  unfold Overload.functionType
  split
  · exact Ty.within_function.mpr ⟨Ty.within_atom _, hret⟩
  case h_2 p heq => exact Ty.within_function.mpr ⟨hparams p (by simp [heq]), hret⟩
  case h_3 =>
    refine Ty.within_function.mpr ⟨Ty.within_tuple.mpr fun t ht => ?_, hret⟩
    obtain ⟨p, hp, rfl⟩ := List.mem_map.mp ht
    exact hparams p hp

/-! Entities -/

namespace Referring

instance : Referring MemberKind where
  Within k
    | .value scheme _ => Within k scheme
    | .method _ overloads => Within k overloads
    | .property _ t | .field t => Within k t
  mono {_ _ kind} hk h := by
    cases kind with
    | value scheme params => exact mono (α := Scheme) hk h
    | method isStatic overloads => exact mono (α := List Overload) hk h
    | property isStatic t => exact mono (α := Ty) hk h
    | field t => exact mono (α := Ty) hk h

instance : Referring Member where
  Within k m := Within k m.kind ∧ Within k m.span
  mono hk h := ⟨mono hk h.1, mono hk h.2⟩

instance : Referring Entity where
  Within k e := Within k e.members ∧ Within k e.constructors ∧ Within k e.span
  mono hk h := ⟨mono hk h.1, mono hk h.2.1, mono hk h.2.2⟩

end Referring

theorem Member.within_symbol {m : Member} (h : Within k m) (owner : String) :
    Within k (m.symbol owner) := by
  have hspan : Within k m.span := h.2
  rwa [← m.symbol_span owner] at hspan

/-- The entity has no variables and no place. -/
theorem Entity.within_of_closed {e : Entity} (hclosed : e.isClosed = true)
    (hforeign : e.isForeign = true) : Within k e := by
  have hlive : e.Live (fun _ => False) k.vars := Entity.live_of_isClosed hclosed
  obtain ⟨hspan, hmembers⟩ : e.span = none ∧ ∀ m ∈ e.members, m.span = none := by
    simpa [isForeign] using hforeign
  have hoverload {o : Overload} (h : o.Live (fun _ => False) k.vars) : Within k o :=
    ⟨fun p hp v hv => ((h.params p hp).vars v hv).1, fun v hv => (h.returnType.vars v hv).1⟩
  refine ⟨fun m hm => ⟨?_, hmembers m hm ▸ within_none⟩,
    fun o ho => hoverload (hlive.constructors o ho), hspan ▸ within_none⟩
  have hkind := hlive.members m hm
  generalize m.kind = kind at hkind ⊢
  cases kind with
  | value scheme params => exact fun v hv => (Scheme.Live.vars hkind v hv).imp_right And.left
  | method isStatic overloads => exact fun o ho => hoverload (hkind o ho)
  | property isStatic t => exact fun v hv => (Ty.Live.vars hkind v hv).1
  | field t => exact fun v hv => (Ty.Live.vars hkind v hv).1

namespace Catalog

theorem within_library {name : String} {entities : List Entity} (h : (name, entities) ∈ libraries) :
    Within k entities := fun e he =>
  Entity.within_of_closed (List.all_eq_true.mp (List.all_eq_true.mp libraries_closed _ h) e he)
    (List.all_eq_true.mp (List.all_eq_true.mp libraries_foreign _ h) e he)

theorem within_entitiesOf (names : List String) : Within k (entitiesOf names) := by
  intro e he
  obtain ⟨l, hl, he⟩ := List.mem_flatMap.mp he
  exact within_library (List.mem_filter.mp hl).1 e he

theorem within_object : Within k object := by
  have h : ("System", [system, object, string, int32, math, console]) ∈ libraries := by
    simp [libraries]
  exact within_library h object (by simp)

end Catalog

/-! States -/

namespace Referring

instance : Referring Callee where
  Within k
    | .value t _ => Within k t
    | .method _ overloads => Within k overloads
  mono {_ _ callee} hk h := by
    cases callee with
    | value t signatures => exact mono (α := Ty) hk h
    | method name overloads => exact mono (α := List Overload) hk h

instance : Referring Target where
  Within k
    | .binder index => Within k index
    | .fixed symbol => Within k symbol
  mono {_ _ target} hk h := by
    cases target with
    | binder index => exact mono (α := Nat) hk h
    | fixed symbol => exact mono (α := Symbol) hk h

instance : Referring Mention where
  Within k m := Within k m.span ∧ Within k m.target
  mono hk h := ⟨mono hk h.1, mono hk h.2⟩

instance : Referring Binder where
  Within k b := Within k b.scheme ∧ Within k b.span
  mono hk h := ⟨mono hk h.1, mono hk h.2⟩

instance : Referring TypeError where
  Within k e := Within k e.span
  mono hk h := mono (α := Span) hk h

instance : Referring OpenRegion where
  Within k r := Within k r.span
  mono hk h := mono (α := Span) hk h

instance : Referring MemberSite where
  Within k m := Within k m.dot ∧ Within k m.name ∧ Within k m.span
  mono hk h := ⟨mono hk h.1, mono hk h.2.1, mono hk h.2.2⟩

instance : Referring CallSite where
  Within k c := Within k c.callee ∧ Within k c.parens
  mono hk h := ⟨mono hk h.1, mono hk h.2⟩

end Referring

structure CheckerRecords.Refer (k : Extent) (r : CheckerRecords) : Prop where
  errors : Within k r.errors
  mentions : Within k r.mentions
  declarations : Within k r.declarations
  visible : Within k r.visible
  regions : Within k r.regions
  members : Within k r.members
  calls : Within k r.calls

theorem CheckerRecords.Refer.mono {r : CheckerRecords} (h : r.Refer k) (hk : k ≤ k') : r.Refer k' :=
  ⟨Referring.mono hk h.errors, Referring.mono hk h.mentions, Referring.mono hk h.declarations,
    Referring.mono hk h.visible, Referring.mono hk h.regions, Referring.mono hk h.members,
    Referring.mono hk h.calls⟩

namespace CheckerState

structure Refers (k : Extent) (s : CheckerState) : Prop where
  binders : Within k s.binders.toList
  entities : Within k s.entities.all
  scope : Within k s.scope.binders
  typeVars : Within k s.typeVars
  abbreviations : Within k s.abbreviations
  records : s.records.Refer k

theorem Refers.mono {s : CheckerState} (h : s.Refers k) (hk : k ≤ k') : s.Refers k' :=
  ⟨Referring.mono hk h.binders, Referring.mono hk h.entities, Referring.mono hk h.scope,
    Referring.mono hk h.typeVars, Referring.mono hk h.abbreviations, h.records.mono hk⟩

/-- What there is to refer to in the state, for a text of this size. -/
def extent (size : Nat) (s : CheckerState) : Extent := ⟨s.store.size, s.binders.size, size⟩

/-- No access was a fault, and none will be: nothing refers beyond what there is. -/
structure Sound (size : Nat) (s : CheckerState) : Prop extends s.Refers (s.extent size) where
  faultless : s.faults = []
  store : s.store.WellBound s.store.Allocated

end CheckerState

end ScriptAnalyzer

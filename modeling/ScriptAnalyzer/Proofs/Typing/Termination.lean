import ScriptAnalyzer.Proofs.Typing.Calls

/-!
Every operation on a store comes to an end. The rules here are the operations as recursions whose depth
nothing bounds; a derivation is a run of the recursion that ends. They all rest on one invariant: no
variable is reached from the type that it is bound to.
-/

namespace ScriptAnalyzer

namespace Ty

theorem parts_subst_eq {t : Ty} (h : ∀ v, t ≠ var v) (f : Nat → Ty) :
    (t.subst f).parts = t.parts.map (subst f) := by
  cases t with
  | var v => exact absurd rfl (h v)
  | named name args => simp [subst, parts, substAll_eq]
  | function param ret => simp [subst, parts]
  | tuple items => simp [subst, parts, substAll_eq]
  | error => rfl

theorem exists_of_mem_vars_subst {f : Nat → Ty} {t : Ty} {v : Nat} (h : v ∈ (t.subst f).vars) :
    ∃ w ∈ t.vars, v ∈ (f w).vars := by
  induction t using parts_induction with
  | ih t ih =>
    by_cases hvar : ∃ w, t = var w
    · obtain ⟨w, rfl⟩ := hvar
      exact ⟨w, by simp [vars], h⟩
    · have hvar : ∀ w, t ≠ var w := fun w hw => hvar ⟨w, hw⟩
      rcases mem_vars_iff.mp h with hvar' | ⟨u, hu, hvu⟩
      · cases t <;> simp_all [subst]
      · rw [parts_subst_eq hvar] at hu
        obtain ⟨part, hpart, rfl⟩ := List.mem_map.mp hu
        obtain ⟨w, hw, hvw⟩ := ih part hpart hvu
        exact ⟨w, vars_part hpart hw, hvw⟩

theorem mem_parts_of_arrayElement {t u : Ty} (h : t.arrayElement? = some u) : u ∈ t.parts := by
  unfold arrayElement? at h
  split at h
  · simp [parts, Option.some.inj h]
  · cases h

theorem sameHead_subst {t : Ty} (h : ∀ v, t ≠ var v) (f : Nat → Ty) : t.SameHead (t.subst f) := by
  cases t with
  | var v => exact absurd rfl (h v)
  | named name args => simp [subst, SameHead, substAll_eq]
  | function param ret => trivial
  | tuple items => simp [subst, SameHead, substAll_eq]
  | error => trivial

end Ty

namespace TypeStore

variable {s s' : TypeStore} {v w : Nat} {a b t u x y : Ty} {P : Ty → Prop}

/-- The variable `w` occurs in the type that `v` is bound to. -/
def Mentions (s : TypeStore) (v w : Nat) : Prop := ∃ t, s.binding? v = some t ∧ w ∈ t.vars

theorem Acyclic.not_reached (hs : s.Acyclic) (v : Nat) : ¬Relation.TransGen s.Mentions v v := by
  obtain ⟨rank, hrank⟩ := hs
  have hdown : ∀ v w, Relation.TransGen s.Mentions v w → rank w < rank v := by
    intro v w h
    induction h with
    | single h =>
      obtain ⟨t, ht, hw⟩ := h
      exact hrank v t ht _ hw
    | tail _ h ih =>
      obtain ⟨t, ht, hw⟩ := h
      exact (hrank _ t ht _ hw).trans ih
  exact fun h => Nat.lt_irrefl _ (hdown v v h)

/-! The operations as recursions -/

/-- Follows bound variables at the head of a type. -/
inductive Follows (s : TypeStore) : Ty → Ty → Prop
  | head {t : Ty} : (∀ v, t = .var v → s.binding? v = none) → Follows s t t
  | bound {v : Nat} {t u : Ty} : s.binding? v = some t → Follows s t u → Follows s (.var v) u

mutual

/-- Replaces bound variables in a type and in its parts. -/
inductive Replaces (s : TypeStore) : Ty → Ty → Prop
  | var {t : Ty} {v : Nat} : Follows s t (.var v) → Replaces s t (.var v)
  | parts {t x u : Ty} : Follows s t x → x.SameHead u → ReplacesAll s x.parts u.parts →
    Replaces s t u

inductive ReplacesAll (s : TypeStore) : List Ty → List Ty → Prop
  | nil : ReplacesAll s [] []
  | cons {t u : Ty} {ts us : List Ty} : Replaces s t u → ReplacesAll s ts us →
    ReplacesAll s (t :: ts) (u :: us)

end

mutual

/-- Searches a type and its parts for a variable, up to the first place where it is found. -/
inductive Searches (s : TypeStore) (v : Nat) : Ty → Bool → Prop
  | var {t : Ty} {w : Nat} : Follows s t (.var w) → Searches s v t (v == w)
  | parts {t x : Ty} {found : Bool} : Follows s t x → (∀ w, x ≠ .var w) →
    SearchesAll s v x.parts found → Searches s v t found

inductive SearchesAll (s : TypeStore) (v : Nat) : List Ty → Bool → Prop
  | nil : SearchesAll s v [] false
  | found {t : Ty} {ts : List Ty} : Searches s v t true → SearchesAll s v (t :: ts) true
  | next {t : Ty} {ts : List Ty} {found : Bool} : Searches s v t false → SearchesAll s v ts found →
    SearchesAll s v (t :: ts) found

end

/-- Binds a variable, unless the search finds it in the type. -/
inductive BindsTo (s : TypeStore) (v : Nat) (t : Ty) : Bool × TypeStore → Prop
  | occurs : Searches s v t true → BindsTo s v t (false, s)
  | bind : Searches s v t false → BindsTo s v t (true, s.bind v t)

mutual

/-- Makes two types equal, and their parts from left to right as long as that succeeds. -/
inductive Unifies : TypeStore → Ty → Ty → Bool × TypeStore → Prop
  | error {s : TypeStore} {a b x y : Ty} : Follows s a x → Follows s b y → x = .error ∨ y = .error →
    Unifies s a b (true, s)
  | same {s : TypeStore} {a b : Ty} {v : Nat} : Follows s a (.var v) → Follows s b (.var v) →
    Unifies s a b (true, s)
  | left {s : TypeStore} {a b y : Ty} {v : Nat} {r : Bool × TypeStore} :
    Follows s a (.var v) → Follows s b y → y ≠ .error → y ≠ .var v → BindsTo s v y r → Unifies s a b r
  | right {s : TypeStore} {a b x : Ty} {v : Nat} {r : Bool × TypeStore} :
    Follows s a x → Follows s b (.var v) → x ≠ .error → (∀ w, x ≠ .var w) → BindsTo s v x r →
    Unifies s a b r
  | parts {s : TypeStore} {a b x y : Ty} {r : Bool × TypeStore} :
    Follows s a x → Follows s b y → x.SameHead y → UnifiesAll s x.parts y.parts r → Unifies s a b r
  | clash {s : TypeStore} {a b x y : Ty} :
    Follows s a x → Follows s b y → x ≠ .error → y ≠ .error → (∀ v, x ≠ .var v) → (∀ v, y ≠ .var v) →
    ¬x.SameHead y → Unifies s a b (false, s)

inductive UnifiesAll : TypeStore → List Ty → List Ty → Bool × TypeStore → Prop
  | nil {s : TypeStore} : UnifiesAll s [] [] (true, s)
  | stop {s s' : TypeStore} {a b : Ty} {as bs : List Ty} : Unifies s a b (false, s') →
    UnifiesAll s (a :: as) (b :: bs) (false, s')
  | next {s s' : TypeStore} {a b : Ty} {as bs : List Ty} {r : Bool × TypeStore} :
    Unifies s a b (true, s') → UnifiesAll s' as bs r → UnifiesAll s (a :: as) (b :: bs) r

end

/-! Each of them ends with what the store gives -/

theorem follows_shallowWith {n : Nat} (h : ∀ v, s.shallowWith n t = .var v → s.binding? v = none) :
    s.Follows t (s.shallowWith n t) := by
  induction n generalizing t with
  | zero => cases t <;> exact .head h
  | succ n ih =>
    cases t with
    | var v =>
      cases hb : s.binding? v with
      | none =>
        simp only [shallowWith, hb, Option.elim] at h ⊢
        exact .head h
      | some u =>
        simp only [shallowWith, hb, Option.elim] at h ⊢
        exact .bound hb (ih h)
    | named name args => exact .head (by simp)
    | function param ret => exact .head (by simp)
    | tuple items => exact .head (by simp)
    | error => exact .head (by simp)

theorem Acyclic.follows (hs : s.Acyclic) (t : Ty) : s.Follows t (s.shallow t) :=
  follows_shallowWith fun _ => shallow_free hs

theorem zonk_shallow (hs : s.Acyclic) (t : Ty) : s.zonk (s.shallow t) = s.zonk t := by
  rw [zonk_eq_subst, zonk_eq_subst, subst_shallow (satisfies_image hs)]

/-- What holds of a type if it holds of the parts behind its head holds of every type. -/
theorem Acyclic.induction (hs : s.Acyclic) {motive : Ty → Prop}
    (ih : ∀ t, (∀ u ∈ (s.shallow t).parts, motive u) → motive t) (t : Ty) : motive t := by
  induction hd : (s.zonk t).depth using Nat.strong_induction_on generalizing t with
  | h d hdepth =>
    refine ih t fun u hu => hdepth (s.zonk u).depth ?_ u rfl
    rw [← hd, ← zonk_shallow hs t, zonk_eq_subst, zonk_eq_subst]
    exact Ty.depth_part (Ty.parts_subst s.image hu)

theorem replacesAll_map {ts : List Ty} (h : ∀ t ∈ ts, s.Replaces t (s.zonk t)) :
    s.ReplacesAll ts (ts.map s.zonk) := by
  induction ts with
  | nil => exact .nil
  | cons t ts ih =>
    obtain ⟨ht, hts⟩ := List.forall_mem_cons.mp h
    exact .cons ht (ih hts)

theorem Acyclic.replaces (hs : s.Acyclic) (t : Ty) : s.Replaces t (s.zonk t) := by
  induction t using hs.induction with
  | ih t ih =>
    have hfollows := hs.follows t
    rw [← zonk_shallow hs t, zonk_eq_subst]
    by_cases hvar : ∃ v, s.shallow t = .var v
    · obtain ⟨v, hv⟩ := hvar
      rw [hv] at hfollows ⊢
      rw [Ty.subst, image_free (shallow_free hs hv)]
      exact .var hfollows
    · have hvar : ∀ v, s.shallow t ≠ .var v := fun v hv => hvar ⟨v, hv⟩
      refine .parts hfollows (Ty.sameHead_subst hvar _) ?_
      rw [Ty.parts_subst_eq hvar, ← funext (zonk_eq_subst s)]
      exact replacesAll_map ih

theorem searchesAll_any {ts : List Ty} (h : ∀ t ∈ ts, s.Searches v t (s.occurs v t)) :
    s.SearchesAll v ts (ts.any (s.occurs v)) := by
  induction ts with
  | nil => exact .nil
  | cons t ts ih =>
    obtain ⟨ht, hts⟩ := List.forall_mem_cons.mp h
    rw [List.any_cons]
    cases hfound : s.occurs v t with
    | true => exact .found (hfound ▸ ht)
    | false => exact .next (hfound ▸ ht) (ih hts)

theorem occurs_eq_any (hs : s.Acyclic) (hvar : ∀ w, s.shallow t ≠ .var w) :
    s.occurs v t = (s.shallow t).parts.any (s.occurs v) := by
  rw [Bool.eq_iff_iff, List.any_eq_true, occurs_iff, ← zonk_shallow hs t, zonk_eq_subst,
    Ty.mem_vars_iff, Ty.parts_subst_eq hvar]
  have hhead : (s.shallow t).subst s.image ≠ .var v := by
    have hsame := Ty.sameHead_subst hvar s.image
    intro heq
    rw [heq] at hsame
    cases hx : s.shallow t <;> simp [hx, Ty.SameHead] at hsame
  simp [hhead, occurs_iff, zonk_eq_subst]

theorem Acyclic.searches (hs : s.Acyclic) (v : Nat) (t : Ty) : s.Searches v t (s.occurs v t) := by
  induction t using hs.induction with
  | ih t ih =>
    have hfollows := hs.follows t
    by_cases hvar : ∃ w, s.shallow t = .var w
    · obtain ⟨w, hw⟩ := hvar
      rw [hw] at hfollows
      have heq : s.occurs v t = (v == w) := by
        rw [Bool.eq_iff_iff, occurs_iff, ← zonk_shallow hs t, hw, zonk_eq_subst, Ty.subst,
          image_free (shallow_free hs hw)]
        simp [Ty.vars]
      rw [heq]
      exact .var hfollows
    · have hvar : ∀ w, s.shallow t ≠ .var w := fun w hw => hvar ⟨w, hw⟩
      rw [occurs_eq_any hs hvar]
      exact .parts hfollows hvar (searchesAll_any ih)

theorem Acyclic.bindsTo (hs : s.Acyclic) (v : Nat) (t : Ty) : s.BindsTo v t (s.bindNew v t) := by
  have hsearches := hs.searches v t
  unfold bindNew
  split
  case isTrue h => exact .occurs (h ▸ hsearches)
  case isFalse h => exact .bind ((Bool.eq_false_iff.mpr h) ▸ hsearches)

/-- The heads of two types decide what becomes of them, given what becomes of their parts. -/
theorem unifies_heads {step : Ty → Ty → TypeStore → Bool × TypeStore} (hs : s.Acyclic)
    (hx : s.Follows a x) (hy : s.Follows b y)
    (hparts : x.SameHead y → UnifiesAll s x.parts y.parts (forAll₂ step x.parts y.parts s)) :
    Unifies s a b (s.unifyHeads step x y) := by
  -- what is in error agrees with every type, and a variable takes the other side whatever its head
  by_cases herror : x = .error ∨ y = .error
  · have heq : s.unifyHeads step x y = (true, s) := by
      rcases herror with rfl | rfl
      · rfl
      · cases x <;> rfl
    rw [heq]
    exact .error hx hy herror
  obtain ⟨hxe, hye⟩ := not_or.mp herror
  by_cases hvar : ∃ v, x = .var v
  · obtain ⟨v, rfl⟩ := hvar
    by_cases hsame : y = .var v
    · subst hsame
      have heq : s.unifyHeads step (.var v) (.var v) = (true, s) := by simp [unifyHeads]
      rw [heq]
      exact .same hx hy
    · have heq : s.unifyHeads step (.var v) y = s.bindNew v y := by
        cases y <;> simp_all [unifyHeads, eq_comm]
      rw [heq]
      exact .left hx hy hye hsame (hs.bindsTo v y)
  have hvar : ∀ v, x ≠ .var v := fun v hv => hvar ⟨v, hv⟩
  by_cases hvar' : ∃ v, y = .var v
  · obtain ⟨v, rfl⟩ := hvar'
    have heq : s.unifyHeads step x (.var v) = s.bindNew v x := by
      cases x <;> simp_all [unifyHeads]
    rw [heq]
    exact .right hx hy hxe hvar (hs.bindsTo v x)
  have hvar' : ∀ v, y ≠ .var v := fun v hv => hvar' ⟨v, hv⟩
  have hheads := unifyHeads_heads step s x y
  generalize hr : s.unifyHeads step x y = r at hheads
  cases hheads with
  | error h => exact absurd h herror
  | same v => exact absurd rfl (hvar v)
  | left => exact absurd rfl (hvar _)
  | right => exact absurd rfl (hvar' _)
  | parts h => exact .parts hx hy h (hparts h)
  | clash _ _ h => exact .clash hx hy hxe hye hvar hvar' h

theorem unifiesAll_forAll₂ {n : Nat} {as bs : List Ty} (hP : Hereditary P)
    (hstep : ∀ a b s, Closed P s → P a → P b → Bounded P n a s → Unifies s a b (unifyWith n a b s))
    (hs : Closed P s) (has : ∀ a ∈ as, P a ∧ Bounded P n a s) (hbs : ∀ b ∈ bs, P b)
    (hlen : as.length = bs.length) : UnifiesAll s as bs (forAll₂ (unifyWith n) as bs s) := by
  induction as generalizing bs s with
  | nil =>
    obtain rfl : bs = [] := List.length_eq_zero_iff.mp hlen.symm
    exact .nil
  | cons a as ih =>
    obtain ⟨b, bs, rfl⟩ := List.exists_cons_of_length_eq_add_one hlen.symm
    obtain ⟨⟨ha, hfuel⟩, has⟩ := List.forall_mem_cons.mp has
    obtain ⟨hb, hbs⟩ := List.forall_mem_cons.mp hbs
    have hfirst := hstep a b s hs ha hb hfuel
    have hbinds := unifyWith_binds_of_closed hP n hs ha hb
    rw [forAll₂_cons]
    cases hr : unifyWith n a b s with
    | mk ok s' =>
      rw [hr] at hfirst hbinds
      cases ok with
      | false => exact .stop hfirst
      | true =>
        refine .next hfirst (ih (closed_of_binds hbinds hs) (fun u hu => ?_) hbs (Nat.succ.inj hlen))
        exact ⟨(has u hu).1, (has u hu).2.mono hbinds⟩

theorem unifyWith_unifies {n : Nat} (hP : Hereditary P) (hs : Closed P s) (ha : P a) (hb : P b)
    (hfuel : Bounded P n a s) : Unifies s a b (unifyWith n a b s) := by
  induction n generalizing a b s with
  | zero => exact absurd (hfuel s .refl) (Nat.not_le_of_lt (Ty.depth_pos _))
  | succ n ih =>
    have hx : P (s.shallow a) := shallow_all hs.bound ha
    have hy : P (s.shallow b) := shallow_all hs.bound hb
    rw [unifyWith]
    refine unifies_heads hs.acyclic (hs.acyclic.follows a) (hs.acyclic.follows b) fun hhead => ?_
    refine unifiesAll_forAll₂ hP (fun a b s hs ha hb => ih hs ha hb) hs (fun u hu => ?_)
      (fun u hu => hP _ u hu hy) hhead.length_parts
    exact ⟨hP _ u hu hx, hfuel.part hs hu⟩

theorem hereditary_depth (d : Nat) : Hereditary fun t => t.depth ≤ d :=
  fun _ _ hu ht => (Nat.le_of_lt (Ty.depth_part hu)).trans ht

theorem Acyclic.unifies (hs : s.Acyclic) (a b : Ty) : Unifies s a b (s.unify a b) := by
  let d := max s.depth (max a.depth b.depth)
  have hwell : WellBound (fun t => t.depth ≤ d) s :=
    ⟨hs, fun v t hv => (depth_le_of_bound hv).trans (Nat.le_max_left _ _)⟩
  have ha : a.depth ≤ d := (Nat.le_max_left _ _).trans (Nat.le_max_right s.depth _)
  have hb : b.depth ≤ d := (Nat.le_max_right _ _).trans (Nat.le_max_right s.depth _)
  have hbounded := bounded_of_depth (fun _ h => h) hwell ha
  refine unifyWith_unifies (hereditary_depth d) hwell.closed ha hb fun s' hs' => ?_
  exact (hbounded s' hs').trans (Nat.le_succ _)

/-! What a store becomes -/

theorem pass_binds {param arg : Ty} (hP : Hereditary P) (hs : Closed P s) (hparam : P param)
    (harg : P arg) (h : s.pass param arg = some s') : Relation.ReflTransGen (Binds P) s s' := by
  unfold pass at h
  split at h
  · exact Option.some.inj h ▸ .refl
  · have hbinds := unifyWith_binds_of_closed hP (s.depthBound param arg + 1) hs hparam harg
    change Relation.ReflTransGen (Binds P) s (s.unify param arg).2 at hbinds
    split at h
    case h_1 heq =>
      rw [heq] at hbinds
      exact Option.some.inj h ▸ hbinds
    case h_2 => cases h

theorem passAll_binds {variadic? : Option Ty} {direct : Bool} {params args : List Ty}
    (hP : Hereditary P) (hs : Closed P s) (hvariadic : ∀ t ∈ variadic?, P t)
    (hparams : ∀ t ∈ params, P t) (hargs : ∀ t ∈ args, P t)
    (h : passAll variadic? direct params args s = some s') : Relation.ReflTransGen (Binds P) s s' := by
  induction args generalizing params s with
  | nil =>
    rw [passAll] at h
    exact Option.some.inj h ▸ .refl
  | cons arg args ih =>
    obtain ⟨param, params', s₁, h₁, h₂, hparam⟩ := passAll_cons h
    obtain ⟨harg, hargs⟩ := List.forall_mem_cons.mp hargs
    have hrest : P param ∧ ∀ t ∈ params', P t := by
      rcases hparam with rfl | ⟨rfl, array, harray, rfl | helement⟩
      · exact List.forall_mem_cons.mp hparams
      · exact ⟨hvariadic _ harray, by simp⟩
      · exact ⟨hP array param (Ty.mem_parts_of_arrayElement helement) (hvariadic _ harray), by simp⟩
    have hfirst := pass_binds hP hs hrest.1 harg h₁
    exact hfirst.trans (ih (closed_of_binds hfirst hs) hrest.2 hargs h₂)

theorem select_binds {overloads : List Overload} {args : List Ty} {t : Ty} (hP : Hereditary P)
    (hs : Closed P s) (hargs : ∀ t ∈ args, P t) (hoverloads : ∀ o ∈ overloads, ∀ p ∈ o.params, P p.type)
    (h : Overload.select args s overloads = some (t, s')) : Relation.ReflTransGen (Binds P) s s' := by
  induction overloads with
  | nil => cases h
  | cons o overloads ih =>
    obtain ⟨ho, hoverloads⟩ := List.forall_mem_cons.mp hoverloads
    unfold Overload.select at h
    split at h
    case h_1 store haccepts =>
      obtain ⟨rfl, rfl⟩ := Prod.mk.inj (Option.some.inj h)
      unfold Overload.accepts at haccepts
      split at haccepts
      · refine passAll_binds hP hs (fun t ht => ?_) (fun t ht => ?_) hargs haccepts
        · obtain ⟨p, hp, rfl⟩ := Option.map_eq_some_iff.mp ht
          exact ho p (List.mem_of_getLast? (Option.filter_eq_some_iff.mp hp).1)
        · obtain ⟨p, hp, rfl⟩ := List.mem_map.mp ht
          exact ho p (List.takeWhile_subset _ hp)
      · cases haccepts
    case h_2 => exact ih hoverloads h

/-- The store behind the choice of an overload: each is tried on the store as it was, and only the one
that accepts the arguments leaves its bindings. -/
def resolve (s : TypeStore) (args : List Ty) (overloads : List Overload) : TypeStore :=
  ((Overload.select args s overloads).map (·.2)).getD s

theorem resolve_binds {overloads : List Overload} {args : List Ty} (hP : Hereditary P)
    (hs : Closed P s) (hargs : ∀ t ∈ args, P t)
    (hoverloads : ∀ o ∈ overloads, ∀ p ∈ o.params, P p.type) :
    Relation.ReflTransGen (Binds P) s (s.resolve args overloads) := by
  unfold resolve
  cases h : Overload.select args s overloads with
  | none => exact .refl
  | some r => exact select_binds hP hs hargs hoverloads h

/-- The operations on a store, with types whose variables it has. -/
inductive Operates : TypeStore → TypeStore → Prop
  | fresh (s : TypeStore) : Operates s s.fresh.2
  | unify {s : TypeStore} {a b : Ty} : s.Allocated a → s.Allocated b → Operates s (s.unify a b).2
  | resolve {s : TypeStore} {args : List Ty} {overloads : List Overload} :
    (∀ t ∈ args, s.Allocated t) → (∀ o ∈ overloads, ∀ p ∈ o.params, s.Allocated p.type) →
    Operates s (s.resolve args overloads)
  | instantiate (s : TypeStore) (scheme : Scheme) : Operates s (s.instantiate scheme).2

/-- Bindings are kept, and the types in them have variables of the store. -/
structure Continues (s s' : TypeStore) : Prop where
  wellBound : WellBound s'.Allocated s'
  kept : ∀ v t, s.binding? v = some t → s'.binding? v = some t

theorem Continues.of_binds (hs : WellBound s.Allocated s)
    (h : Relation.ReflTransGen (Binds s.Allocated) s s') : Continues s s' := by
  have hextends := extends_of_binds h
  refine ⟨(wellBound_of_binds h hs).mono fun t ht v hv => ?_, hextends.kept⟩
  exact Nat.lt_of_lt_of_le (ht v hv) (Nat.le_of_eq hextends.size.symm)

theorem Continues.of_binding? (hs : WellBound s.Allocated s) (hsize : s.size ≤ s'.size)
    (h : ∀ v, s'.binding? v = s.binding? v) : Continues s s' :=
  ⟨hs.allocated_of_binding? hsize h, fun v _ hv => (h v).trans hv⟩

theorem Operates.continues (h : Operates s s') (hs : WellBound s.Allocated s) : Continues s s' := by
  have hallocated := hereditary_allocated s
  cases h with
  | fresh => exact .of_binding? hs (by rw [size_fresh]; omega) s.binding?_fresh
  | unify ha hb =>
    exact .of_binds hs (unifyWith_binds_of_closed hallocated _ hs.closed ha hb)
  | resolve hargs hoverloads =>
    exact .of_binds hs (resolve_binds hallocated hs.closed hargs hoverloads)
  | instantiate scheme =>
    exact .of_binding? hs (Nat.le.intro (s.size_extend _).symm) (s.binding?_extend _)

theorem continues_of_operations (h : Relation.ReflTransGen Operates s s')
    (hs : WellBound s.Allocated s) : Continues s s' := by
  induction h with
  | refl => exact ⟨hs, fun _ _ h => h⟩
  | tail _ hstep ih =>
    have hlast := hstep.continues ih.wellBound
    exact ⟨hlast.wellBound, fun v t hv => hlast.kept v t (ih.kept v t hv)⟩

theorem vars_image_free (hs : s.Acyclic) (v : Nat) : ∀ w ∈ (s.image v).vars, s.binding? w = none := by
  obtain ⟨rank, hrank⟩ := hs
  induction hr : rank v using Nat.strong_induction_on generalizing v with
  | h r ih =>
    intro w hw
    cases hv : s.binding? v with
    | none =>
      rw [image_free hv] at hw
      obtain rfl : w = v := by simpa [Ty.vars] using hw
      exact hv
    | some t =>
      rw [image_bound ⟨rank, hrank⟩ hv, zonk_eq_subst] at hw
      obtain ⟨x, hx, hwx⟩ := Ty.exists_of_mem_vars_subst hw
      exact ih (rank x) (hr ▸ hrank v t hv x hx) x rfl w hwx

theorem zonk_free (hs : s.Acyclic) (t : Ty) : ∀ v ∈ (s.zonk t).vars, s.binding? v = none := by
  intro v hv
  rw [zonk_eq_subst] at hv
  obtain ⟨x, -, hvx⟩ := Ty.exists_of_mem_vars_subst hv
  exact vars_image_free hs x v hvx

theorem zonk_zonk (hs' : s'.Acyclic) (h : ∀ v t, s.binding? v = some t → s'.binding? v = some t)
    (t : Ty) : s'.zonk (s.zonk t) = s'.zonk t := by
  have hsatisfies : Satisfies s'.image s := fun v u hv => satisfies_image hs' v u (h v u hv)
  rw [zonk_eq_subst s', zonk_eq_subst s', subst_zonk hsatisfies]

/-- Behind any operations from the empty store on, no variable is reached from its own binding, every
recursion ends on every type, and replacing is final: it leaves no bound variable, and what an earlier
store has replaced makes no difference to a later one. -/
theorem store_well_founded (h : Relation.ReflTransGen Operates {} s) :
    (∀ v, ¬Relation.TransGen s.Mentions v v) ∧
    (∀ t, s.Follows t (s.shallow t) ∧ s.Replaces t (s.zonk t) ∧
      ∀ v, s.Searches v t (s.occurs v t)) ∧
    (∀ a b, Unifies s a b (s.unify a b)) ∧
    (∀ t, ∀ v ∈ (s.zonk t).vars, s.binding? v = none) ∧
    (∀ t, s.zonk (s.zonk t) = s.zonk t) ∧
    ∀ s', Relation.ReflTransGen Operates s s' → ∀ t, s'.zonk (s.zonk t) = s'.zonk t := by
  have hempty : WellBound (Allocated {}) {} :=
    ⟨⟨id, fun v t hv => by simp [binding?] at hv⟩, fun v t hv => by simp [binding?] at hv⟩
  have hwell := (continues_of_operations h hempty).wellBound
  have hs := hwell.acyclic
  refine ⟨hs.not_reached, fun t => ⟨hs.follows t, hs.replaces t, fun v => hs.searches v t⟩,
    hs.unifies, zonk_free hs, zonk_zonk hs fun _ _ h => h, fun s' h' => ?_⟩
  have hlater := continues_of_operations h' hwell
  exact zonk_zonk hlater.wellBound.acyclic hlater.kept

/-- A pair of functions can be made equal in their parameters only: the first variable keeps what that
binds it to. -/
def halfStore : TypeStore := { bindings := #[some (.list (.var 1)), some .int] }

theorem halfStore_well_founded :
    Relation.ReflTransGen Operates {} halfStore ∧
    ¬Relation.TransGen halfStore.Mentions 0 0 ∧ halfStore.Follows (.var 1) .int ∧
    halfStore.zonk (.var 0) = .list .int ∧
    halfStore.zonk (halfStore.zonk (.var 0)) = halfStore.zonk (.var 0) := by
  have hlist : Operates { bindings := #[none, none] } { bindings := #[some (.list (.var 1)), none] } :=
    .unify (a := .var 0) (b := .list (.var 1)) (by decide) (by decide)
  have hhalf : Operates { bindings := #[some (.list (.var 1)), none] } halfStore :=
    .unify (a := .function (.var 1) (.var 0)) (b := .function .int .unit) (by decide) (by decide)
  have hoperations : Relation.ReflTransGen Operates {} halfStore :=
    .tail (.tail (.tail (.single (.fresh {})) (.fresh _)) hlist) hhalf
  obtain ⟨hreached, hends, -, -, hagain, -⟩ := store_well_founded hoperations
  exact ⟨hoperations, hreached 0, (hends (.var 1)).1, by decide, hagain (.var 0)⟩

end TypeStore

namespace Checker

/-- A call of a method leaves the store as the choice of its overload does. -/
theorem callMethod_store (name : String) (overloads : List Overload) (args : List Ty) (span : Span)
    (s : CheckerState) : (callMethod name overloads args span).Yields s fun _ s' =>
      s'.store = s.store.resolve args overloads := by
  simp only [callMethod, yields_bind, yields_modify, yields_get, TypeStore.resolve,
    CheckerState.demand_store]
  split
  case h_1 t store h => rw [h]; rfl
  case h_2 h => rw [h]; rfl

end Checker
end ScriptAnalyzer

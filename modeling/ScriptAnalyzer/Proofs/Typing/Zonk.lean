import Mathlib.Data.Finset.Card
import Mathlib.Data.Finset.Range
import Mathlib.Algebra.Order.BigOperators.Group.List
import Mathlib.Algebra.Order.Group.Nat
import Mathlib.Data.List.Basic
import ScriptAnalyzer.Typing.Store
import ScriptAnalyzer.Typing.Ty

namespace ScriptAnalyzer.Ty

def parts : Ty → List Ty
  | named _ args => args
  | function param ret => [param, ret]
  | tuple items => items
  | var _ | error => []

mutual

def hasError : Ty → Bool
  | var _ => false
  | named _ args => hasErrorAll args
  | function param ret => hasError param || hasError ret
  | tuple items => hasErrorAll items
  | error => true

def hasErrorAll : List Ty → Bool
  | [] => false
  | t :: ts => hasError t || hasErrorAll ts

end

attribute [grind =] hasError hasErrorAll subst substAll vars varsOfAll depth depthOfAll

theorem sizeOf_part {t u : Ty} (h : u ∈ t.parts) : sizeOf u < sizeOf t := by
  cases t with
  | var v => simp [parts] at h
  | named name args =>
    have : sizeOf u < sizeOf args := List.sizeOf_lt_of_mem h
    simp only [named.sizeOf_spec]
    omega
  | function param ret =>
    simp only [parts, List.mem_cons, List.not_mem_nil, or_false] at h
    simp only [function.sizeOf_spec]
    rcases h with rfl | rfl <;> omega
  | tuple items =>
    have : sizeOf u < sizeOf items := List.sizeOf_lt_of_mem h
    simp only [tuple.sizeOf_spec]
    omega
  | error => simp [parts] at h

theorem parts_induction {motive : Ty → Prop}
    (ih : ∀ t, (∀ u ∈ t.parts, motive u) → motive t) (t : Ty) : motive t :=
  ih t fun u _ => parts_induction ih u
termination_by sizeOf t
decreasing_by exact sizeOf_part ‹_›

theorem substAll_eq (f : Nat → Ty) (ts : List Ty) : substAll f ts = ts.map (subst f) := by
  induction ts with
  | nil => rfl
  | cons t ts ih => rw [substAll, ih, List.map_cons]

theorem varsOfAll_eq (ts : List Ty) : varsOfAll ts = ts.flatMap vars := by
  induction ts with
  | nil => rfl
  | cons t ts ih => rw [varsOfAll, ih, List.flatMap_cons]

theorem hasErrorAll_eq (ts : List Ty) : hasErrorAll ts = ts.any hasError := by
  induction ts with
  | nil => rfl
  | cons t ts ih => rw [hasErrorAll, ih, List.any_cons]

theorem depthOfAll_lt_iff {ts : List Ty} {d : Nat} :
    depthOfAll ts < d ↔ 0 < d ∧ ∀ t ∈ ts, t.depth < d := by
  induction ts with
  | nil => simp [depthOfAll]
  | cons t ts ih =>
    rw [depthOfAll, Nat.max_lt, ih, List.forall_mem_cons]
    exact and_left_comm

theorem depth_pos (t : Ty) : 0 < t.depth := by
  cases t <;> simp [depth]

theorem depth_le_iff {t : Ty} {d : Nat} :
    t.depth ≤ d ↔ 0 < d ∧ ∀ u ∈ t.parts, u.depth < d := by
  cases t with
  | var v => exact ⟨fun h => ⟨h, nofun⟩, And.left⟩
  | named name args => exact depthOfAll_lt_iff
  | function param ret =>
    simp only [depth, parts, List.forall_mem_cons, List.not_mem_nil, false_imp_iff, implies_true,
      and_true]
    omega
  | tuple items => exact depthOfAll_lt_iff
  | error => exact ⟨fun h => ⟨h, nofun⟩, And.left⟩

theorem depth_part {t u : Ty} (h : u ∈ t.parts) : u.depth < t.depth :=
  (depth_le_iff.mp (Nat.le_refl t.depth)).2 u h

theorem hasError_part {t u : Ty} (ht : t.hasError = false) (h : u ∈ t.parts) :
    u.hasError = false := by
  cases t with
  | var v => simp [parts] at h
  | named name args =>
    rw [hasError, hasErrorAll_eq, List.any_eq_false] at ht
    simpa using ht u h
  | function param ret =>
    simp only [hasError, Bool.or_eq_false_iff] at ht
    simp only [parts, List.mem_cons, List.not_mem_nil, or_false] at h
    rcases h with rfl | rfl
    · exact ht.1
    · exact ht.2
  | tuple items =>
    rw [hasError, hasErrorAll_eq, List.any_eq_false] at ht
    simpa using ht u h
  | error => simp [parts] at h

theorem mem_vars_iff {t : Ty} {v : Nat} :
    v ∈ t.vars ↔ t = var v ∨ ∃ u ∈ t.parts, v ∈ u.vars := by
  cases t with
  | var w => simp [vars, parts, eq_comm]
  | named name args => simp [vars, parts, varsOfAll_eq]
  | function param ret => simp [vars, parts]
  | tuple items => simp [vars, parts, varsOfAll_eq]
  | error => simp [vars, parts]

theorem vars_part {t u : Ty} {v : Nat} (h : u ∈ t.parts) (hv : v ∈ u.vars) : v ∈ t.vars :=
  mem_vars_iff.mpr (.inr ⟨u, h, hv⟩)

theorem subst_congr {f g : Nat → Ty} {t : Ty} (h : ∀ v ∈ t.vars, f v = g v) :
    t.subst f = t.subst g := by
  induction t using parts_induction with
  | ih t ih =>
    have hparts : ∀ u ∈ t.parts, u.subst f = u.subst g :=
      fun u hu => ih u hu fun v hv => h v (vars_part hu hv)
    cases t with
    | var v => exact h v (by simp [vars])
    | named name args => simpa [subst, parts, substAll_eq] using hparts
    | function param ret => simpa [subst, parts] using hparts
    | tuple items => simpa [subst, parts, substAll_eq] using hparts
    | error => rfl

theorem subst_subst (f g : Nat → Ty) (t : Ty) :
    (t.subst f).subst g = t.subst fun v => (f v).subst g := by
  induction t using parts_induction with
  | ih t ih =>
    cases t with
    | var v => rfl
    | named name args => simpa [subst, parts, substAll_eq] using ih
    | function param ret => simpa [subst, parts] using ih
    | tuple items => simpa [subst, parts, substAll_eq] using ih
    | error => rfl

theorem subst_var (t : Ty) : t.subst var = t := by
  induction t using parts_induction with
  | ih t ih =>
    cases t with
    | var v => rfl
    | named name args =>
      have hargs : args.map (subst var) = args.map id := List.map_congr_left ih
      rw [subst, substAll_eq, hargs, List.map_id]
    | function param ret => simpa [subst, parts] using ih
    | tuple items =>
      have hitems : items.map (subst var) = items.map id := List.map_congr_left ih
      rw [subst, substAll_eq, hitems, List.map_id]
    | error => rfl

theorem parts_subst {t u : Ty} (f : Nat → Ty) (h : u ∈ t.parts) : u.subst f ∈ (t.subst f).parts := by
  cases t with
  | var v => simp [parts] at h
  | named name args => simpa [subst, parts, substAll_eq] using ⟨u, h, rfl⟩
  | function param ret =>
    simp only [parts, List.mem_cons, List.not_mem_nil, or_false] at h
    rcases h with rfl | rfl <;> simp [subst, parts]
  | tuple items => simpa [subst, parts, substAll_eq] using ⟨u, h, rfl⟩
  | error => simp [parts] at h

theorem mem_vars_subst {f : Nat → Ty} {t : Ty} {v w : Nat} (hw : w ∈ t.vars)
    (hv : v ∈ (f w).vars) : v ∈ (t.subst f).vars := by
  induction t using parts_induction with
  | ih t ih =>
    rcases mem_vars_iff.mp hw with rfl | ⟨u, hu, hwu⟩
    · exact hv
    · exact vars_part (parts_subst f hu) (ih u hu hwu)

theorem depth_le_subst {f : Nat → Ty} {t : Ty} {v : Nat} (h : v ∈ t.vars) :
    (f v).depth ≤ (t.subst f).depth := by
  induction t using parts_induction with
  | ih t ih =>
    rcases mem_vars_iff.mp h with rfl | ⟨u, hu, hvu⟩
    · exact Nat.le_refl _
    · exact Nat.le_trans (ih u hu hvu) (Nat.le_of_lt (depth_part (parts_subst f hu)))

theorem depth_lt_subst {f : Nat → Ty} {t : Ty} {v : Nat} (h : v ∈ t.vars) (ht : t ≠ var v) :
    (f v).depth < (t.subst f).depth := by
  rcases mem_vars_iff.mp h with rfl | ⟨u, hu, hvu⟩
  · exact absurd rfl ht
  · exact Nat.lt_of_le_of_lt (depth_le_subst hvu) (depth_part (parts_subst f hu))

theorem depth_subst_le {f : Nat → Ty} {d : Nat} (h : ∀ v, (f v).depth ≤ d) (t : Ty) :
    (t.subst f).depth ≤ t.depth + d := by
  induction t using parts_induction with
  | ih t ih =>
    have hparts : ∀ u ∈ t.parts, (u.subst f).depth < t.depth + d := by
      intro u hu
      have := ih u hu
      have := depth_part hu
      omega
    have hpos := depth_pos t
    cases t with
    | var v => exact Nat.le_trans (h v) (Nat.le_add_left d _)
    | named name args =>
      refine depth_le_iff.mpr ⟨by omega, ?_⟩
      simpa [subst, parts, substAll_eq] using hparts
    | function param ret =>
      refine depth_le_iff.mpr ⟨by omega, ?_⟩
      simpa [subst, parts] using hparts
    | tuple items =>
      refine depth_le_iff.mpr ⟨by omega, ?_⟩
      simpa [subst, parts, substAll_eq] using hparts
    | error => simp [subst, depth]

def SameHead : Ty → Ty → Prop
  | named m as, named n bs => m = n ∧ as.length = bs.length
  | function _ _, function _ _ => True
  | tuple as, tuple bs => as.length = bs.length
  | error, error => True
  | _, _ => False

theorem SameHead.length_parts {a b : Ty} (h : a.SameHead b) : a.parts.length = b.parts.length := by
  cases a <;> cases b <;> simp_all [SameHead, parts]

theorem SameHead.subst_eq_iff {a b : Ty} (h : a.SameHead b) (f : Nat → Ty) :
    a.subst f = b.subst f ↔ a.parts.map (subst f) = b.parts.map (subst f) := by
  cases a <;> cases b <;> simp_all [SameHead, parts, subst, substAll_eq]

theorem sameHead_of_subst_eq {a b : Ty} {f : Nat → Ty} (ha : ∀ v, a ≠ var v) (hb : ∀ v, b ≠ var v)
    (h : a.subst f = b.subst f) : a.SameHead b := by
  cases a <;> cases b <;> simp_all [SameHead, subst, substAll_eq]
  case named.named => simpa using congrArg List.length h.2
  case tuple.tuple => simpa using congrArg List.length h

end ScriptAnalyzer.Ty

namespace ScriptAnalyzer.TypeStore

variable {s s' : TypeStore} {σ : Nat → Ty} {v w : Nat} {t u : Ty}

/-- The substitution gives each bound variable what it gives the type that the variable is bound to. -/
def Satisfies (σ : Nat → Ty) (s : TypeStore) : Prop :=
  ∀ v t, s.binding? v = some t → σ v = t.subst σ

def Ranks (rank : Nat → Nat) (s : TypeStore) : Prop :=
  ∀ v t, s.binding? v = some t → ∀ w ∈ t.vars, rank w < rank v

/-- No variable occurs in the type that it stands for, or in the types that this type stands for. -/
def Acyclic (s : TypeStore) : Prop := ∃ rank, Ranks rank s

structure Extends (s s' : TypeStore) : Prop where
  size : s'.size = s.size
  kept : ∀ v t, s.binding? v = some t → s'.binding? v = some t

theorem Extends.refl (s : TypeStore) : s.Extends s := ⟨rfl, fun _ _ h => h⟩

theorem Extends.trans {s'' : TypeStore} (h : s.Extends s') (h' : s'.Extends s'') :
    s.Extends s'' :=
  ⟨h'.size.trans h.size, fun v t hv => h'.kept v t (h.kept v t hv)⟩

theorem Satisfies.of_extends (h : Satisfies σ s') (hs : s.Extends s') : Satisfies σ s :=
  fun v t hv => h v t (hs.kept v t hv)

theorem lt_size_of_bound (h : s.binding? v = some t) : v < s.size := by
  by_contra hv
  rw [binding?, Array.getElem?_eq_none (Nat.le_of_not_lt hv)] at h
  simp at h

theorem binding?_bind (s : TypeStore) (v w : Nat) (t : Ty) :
    (s.bind v t).binding? w = if w = v ∧ v < s.size then some t else s.binding? w := by
  simp only [binding?, bind, size, Array.getElem?_setIfInBounds]
  by_cases hw : v = w
  · subst hw
    by_cases hv : v < s.bindings.size <;> simp [hv]
  · simp [hw, Ne.symm hw]

theorem size_bind (s : TypeStore) (v : Nat) (t : Ty) : (s.bind v t).size = s.size := by
  simp [size, bind]

theorem extends_bind (free : s.binding? v = none) : s.Extends (s.bind v t) := by
  refine ⟨size_bind s v t, fun w u hw => ?_⟩
  rw [binding?_bind, if_neg]
  · exact hw
  · rintro ⟨rfl, _⟩
    rw [free] at hw
    cases hw

section Height

variable {rank : Nat → Nat}

def height (s : TypeStore) (rank : Nat → Nat) (v : Nat) : Nat :=
  ((Finset.range s.size).filter fun w => (s.binding? w).isSome ∧ rank w < rank v).card

theorem height_lt_size (h : s.binding? v = some t) : s.height rank v < s.size := by
  have hv : v ∈ Finset.range s.size := Finset.mem_range.mpr (lt_size_of_bound h)
  calc s.height rank v < (Finset.range s.size).card := by
        refine Finset.card_lt_card (Finset.ssubset_iff_subset_ne.mpr ⟨Finset.filter_subset _ _, ?_⟩)
        intro heq
        rw [← heq] at hv
        simp at hv
    _ = s.size := Finset.card_range s.size

theorem height_lt (hr : Ranks rank s) (hv : s.binding? v = some t) (hw : w ∈ t.vars)
    (hu : s.binding? w = some u) : s.height rank w < s.height rank v := by
  have hlt : rank w < rank v := hr v t hv w hw
  refine Finset.card_lt_card ⟨?_, ?_⟩
  · intro x hx
    simp only [Finset.mem_filter, Finset.mem_range] at hx ⊢
    exact ⟨hx.1, hx.2.1, hx.2.2.trans hlt⟩
  · intro hsub
    have hmem : w ∈ (Finset.range s.size).filter
        fun x => (s.binding? x).isSome ∧ rank x < rank v := by
      simp only [Finset.mem_filter, Finset.mem_range]
      exact ⟨lt_size_of_bound hu, by simp [hu], hlt⟩
    simpa using hsub hmem

theorem zonkWith_eq (hr : Ranks rank s) {n m : Nat} (hnm : n ≤ m)
    (ht : ∀ w ∈ t.vars, ∀ u, s.binding? w = some u → s.height rank w < n) :
    s.zonkWith m t = s.zonkWith n t := by
  induction n generalizing m t with
  | zero =>
    have hfree : ∀ w ∈ t.vars, s.binding? w = none := by
      intro w hw
      by_contra hb
      obtain ⟨u, hu⟩ := Option.ne_none_iff_exists'.mp hb
      exact absurd (ht w hw u hu) (Nat.not_lt_zero _)
    cases m with
    | zero => rfl
    | succ m =>
      refine (Ty.subst_congr fun w hw => ?_).trans t.subst_var
      rw [hfree w hw, Option.elim]
  | succ n ih =>
    obtain ⟨m, rfl⟩ : ∃ k, m = k + 1 := ⟨m - 1, by omega⟩
    refine Ty.subst_congr fun w hw => ?_
    -- each replacement leads to bound variables of smaller height
    cases hb : s.binding? w with
    | none => rfl
    | some u =>
      refine ih (by omega) fun x hx y hy => ?_
      have := height_lt hr hb hx hy
      have := ht w hw u hb
      omega

theorem shallowWith_free (hr : Ranks rank s) {n : Nat}
    (ht : ∀ w u, t = .var w → s.binding? w = some u → s.height rank w < n)
    (h : s.shallowWith n t = .var v) : s.binding? v = none := by
  induction n generalizing t with
  | zero =>
    obtain rfl : t = .var v := by simpa [shallowWith] using h
    by_contra hb
    obtain ⟨u, hu⟩ := Option.ne_none_iff_exists'.mp hb
    exact absurd (ht v u rfl hu) (Nat.not_lt_zero _)
  | succ n ih =>
    cases t with
    | var w =>
      cases hb : s.binding? w with
      | none =>
        obtain rfl : w = v := by simpa [shallowWith, hb] using h
        exact hb
      | some u =>
        refine ih (t := u) ?_ (by simpa [shallowWith, hb] using h)
        rintro x y rfl hy
        have := height_lt hr hb (by simp [Ty.vars]) hy
        have := ht w _ rfl hb
        omega
    | named name args => simp [shallowWith] at h
    | function param ret => simp [shallowWith] at h
    | tuple items => simp [shallowWith] at h
    | error => simp [shallowWith] at h

end Height

def image (s : TypeStore) (v : Nat) : Ty := s.zonk (.var v)

theorem zonk_eq_subst (s : TypeStore) (t : Ty) : s.zonk t = t.subst s.image := by
  unfold image zonk
  cases s.size with
  | zero => exact t.subst_var.symm
  | succ n => rfl

theorem image_free (h : s.binding? v = none) : s.image v = .var v := by
  unfold image zonk
  cases s.size with
  | zero => rfl
  | succ n => simp [zonkWith, Ty.subst, h]

theorem image_bound (hs : s.Acyclic) (h : s.binding? v = some t) : s.image v = s.zonk t := by
  obtain ⟨rank, hr⟩ := hs
  unfold image zonk
  obtain ⟨n, hn⟩ : ∃ n, s.size = n + 1 := ⟨s.size - 1, by have := lt_size_of_bound h; omega⟩
  have hle : ∀ w ∈ t.vars, ∀ u, s.binding? w = some u → s.height rank w < n := by
    intro w hw u hu
    have := height_lt hr h hw hu
    have : s.height rank v < s.size := height_lt_size h
    omega
  calc s.zonkWith s.size (.var v) = s.zonkWith n t := by simp [hn, zonkWith, Ty.subst, h]
    _ = s.zonkWith s.size t := (zonkWith_eq hr (by omega) hle).symm

theorem satisfies_image (hs : s.Acyclic) : Satisfies s.image s := by
  intro v t hv
  rw [image_bound hs hv, zonk_eq_subst]

theorem subst_zonk (h : Satisfies σ s) (t : Ty) : (s.zonk t).subst σ = t.subst σ := by
  unfold zonk
  induction s.size generalizing t with
  | zero => rfl
  | succ n ih =>
    rw [zonkWith, Ty.subst_subst]
    refine Ty.subst_congr fun v _ => ?_
    cases hb : s.binding? v with
    | none => rfl
    | some u => rw [Option.elim, ih u, h v u hb]

theorem subst_shallow (h : Satisfies σ s) (t : Ty) : (s.shallow t).subst σ = t.subst σ := by
  unfold shallow
  induction s.size generalizing t with
  | zero => cases t <;> rfl
  | succ n ih =>
    cases t with
    | var v =>
      cases hb : s.binding? v with
      | none => simp [shallowWith, hb]
      | some u =>
        have hv : (Ty.var v).subst σ = u.subst σ := h v u hb
        simp only [shallowWith, hb, Option.elim, ih u, hv]
    | named name args => rfl
    | function param ret => rfl
    | tuple items => rfl
    | error => rfl

theorem shallow_free (hs : s.Acyclic) (h : s.shallow t = .var v) : s.binding? v = none := by
  obtain ⟨rank, hr⟩ := hs
  exact shallowWith_free hr (fun _ _ _ hu => height_lt_size hu) h

theorem shallow_all {P : Ty → Prop} (hs : ∀ v t, s.binding? v = some t → P (.var v) → P t)
    (ht : P t) : P (s.shallow t) := by
  unfold shallow
  induction s.size generalizing t with
  | zero => cases t <;> exact ht
  | succ n ih =>
    cases t with
    | var v =>
      cases hb : s.binding? v with
      | none => simpa [shallowWith, hb] using ht
      | some u => simpa [shallowWith, hb] using ih (hs v u hb ht)
    | named name args => exact ht
    | function param ret => exact ht
    | tuple items => exact ht
    | error => exact ht

theorem depth_zonk_le {d : Nat} (hd : 0 < d) (hs : ∀ v t, s.binding? v = some t → t.depth ≤ d)
    (t : Ty) : (s.zonk t).depth ≤ t.depth + s.size * d := by
  unfold zonk
  induction s.size generalizing t with
  | zero => exact Nat.le_add_right _ _
  | succ n ih =>
    refine Ty.depth_subst_le (fun v => ?_) t
    rw [Nat.succ_mul]
    cases hb : s.binding? v with
    | none =>
      simp only [Option.elim, Ty.depth]
      omega
    | some u =>
      have := ih u
      have := hs v u hb
      simp only [Option.elim]
      omega

theorem mem_vars_image (hs : s.Acyclic) (hw : s.binding? w = some t) {x : Nat} (hx : x ∈ t.vars)
    (hv : v ∈ (s.image x).vars) : v ∈ (s.image w).vars := by
  rw [image_bound hs hw, zonk_eq_subst]
  exact Ty.mem_vars_subst hx hv

theorem acyclic_bind (hs : s.Acyclic) (free : s.binding? v = none) (out : v ∉ (s.zonk t).vars) :
    (s.bind v t).Acyclic := by
  have ⟨rank, hr⟩ := hs
  -- everything that leads to `v` is put above all variables of `t`
  let top := (t.vars.map rank).sum + 1
  have htop : ∀ w ∈ t.vars, rank w < top := fun w hw =>
    Nat.lt_succ_of_le (List.single_le_sum (fun _ _ => Nat.zero_le _) _ (List.mem_map_of_mem hw))
  refine ⟨fun w => if v ∈ (s.image w).vars then rank w + top else rank w, ?_⟩
  intro w u hu x hx
  rw [binding?_bind] at hu
  split at hu
  case isTrue h =>
    obtain ⟨rfl, _⟩ := h
    obtain rfl : t = u := by simpa using hu
    have hout : w ∉ (s.image x).vars := by
      rw [zonk_eq_subst] at out
      exact fun hmem => out (Ty.mem_vars_subst hx hmem)
    have hin : w ∈ (s.image w).vars := by simp [image_free free, Ty.vars]
    have := htop x hx
    simp only [if_neg hout, if_pos hin]
    omega
  case isFalse h =>
    have hlt : rank x < rank w := hr w u hu x hx
    by_cases hxv : v ∈ (s.image x).vars
    · simp only [if_pos hxv, if_pos (mem_vars_image hs hu hx hxv)]
      omega
    · simp only [if_neg hxv]
      split <;> omega

theorem Acyclic.of_binding? (hs : s.Acyclic) (h : ∀ v, s'.binding? v = s.binding? v) :
    s'.Acyclic := by
  obtain ⟨rank, hr⟩ := hs
  exact ⟨rank, fun v t hv => hr v t (h v ▸ hv)⟩

theorem binding?_fresh (s : TypeStore) (v : Nat) : s.fresh.2.binding? v = s.binding? v := by
  simp only [fresh, binding?, Array.getElem?_push]
  split
  case isTrue h => simp [h]
  case isFalse => rfl

theorem binding?_extend (s : TypeStore) (n v : Nat) : (s.extend n).binding? v = s.binding? v := by
  induction n generalizing s with
  | zero => rfl
  | succ n ih => rw [extend, ih, binding?_fresh]

end ScriptAnalyzer.TypeStore

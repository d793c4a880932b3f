import ScriptAnalyzer.Proofs.Typing.Zonk
import Mathlib.Logic.Relation

namespace ScriptAnalyzer.TypeStore

variable {s s' : TypeStore} {σ : Nat → Ty} {v : Nat} {a b t u : Ty} {P Q : Ty → Prop}

inductive Binds (P : Ty → Prop) (s : TypeStore) : TypeStore → Prop where
  | bind (v : Nat) (t : Ty) (free : s.binding? v = none) (out : v ∉ (s.zonk t).vars)
      (hv : P (.var v)) (ht : P t) : Binds P s (s.bind v t)

/-- Following bound variables does not lead out of `P`. Variables outside `P` may stand for any types. -/
structure Closed (P : Ty → Prop) (s : TypeStore) : Prop where
  acyclic : s.Acyclic
  bound : ∀ v t, s.binding? v = some t → P (.var v) → P t

structure WellBound (P : Ty → Prop) (s : TypeStore) : Prop where
  acyclic : s.Acyclic
  bound : ∀ v t, s.binding? v = some t → P t

theorem WellBound.mono (h : WellBound P s) (hPQ : ∀ t, P t → Q t) : WellBound Q s :=
  ⟨h.acyclic, fun v t hv => hPQ t (h.bound v t hv)⟩

theorem WellBound.closed (h : WellBound P s) : Closed P s :=
  ⟨h.acyclic, fun v t hv _ => h.bound v t hv⟩

theorem Binds.closed (h : Binds P s s') (hs : Closed P s) : Closed P s' := by
  obtain ⟨v, t, free, out, hv, ht⟩ := h
  refine ⟨acyclic_bind hs.acyclic free out, fun w u hw hPw => ?_⟩
  rw [binding?_bind] at hw
  split at hw
  · obtain rfl : t = u := by simpa using hw
    exact ht
  · exact hs.bound w u hw hPw

theorem Binds.wellBound (h : Binds P s s') (hs : WellBound P s) : WellBound P s' := by
  obtain ⟨v, t, free, out, hv, ht⟩ := h
  refine ⟨acyclic_bind hs.acyclic free out, fun w u hw => ?_⟩
  rw [binding?_bind] at hw
  split at hw
  · obtain rfl : t = u := by simpa using hw
    exact ht
  · exact hs.bound w u hw

theorem extends_of_binds (h : Relation.ReflTransGen (Binds P) s s') : s.Extends s' := by
  induction h with
  | refl => exact Extends.refl s
  | tail _ hstep ih =>
    obtain ⟨v, t, free, _, _, _⟩ := hstep
    exact ih.trans (extends_bind free)

theorem closed_of_binds (h : Relation.ReflTransGen (Binds P) s s') (hs : Closed P s) :
    Closed P s' := by
  induction h with
  | refl => exact hs
  | tail _ hstep ih => exact hstep.closed ih

theorem binding?_of_binds (h : Relation.ReflTransGen (Binds P) s s') (hv : ¬P (.var v)) :
    s'.binding? v = s.binding? v := by
  induction h with
  | refl => rfl
  | tail _ hstep ih =>
    obtain ⟨w, t, _, _, hw, _⟩ := hstep
    rw [binding?_bind, if_neg, ih]
    rintro ⟨rfl, -⟩
    exact hv hw

theorem wellBound_of_binds (h : Relation.ReflTransGen (Binds P) s s') (hs : WellBound P s) :
    WellBound P s' := by
  induction h with
  | refl => exact hs
  | tail _ hstep ih => exact hstep.wellBound ih

theorem occurs_iff : s.occurs v t = true ↔ v ∈ (s.zonk t).vars := by
  simp [occurs]

theorem bindNew_binds (free : s.binding? v = none) (hv : P (.var v)) (ht : P t) :
    Relation.ReflTransGen (Binds P) s (s.bindNew v t).2 := by
  unfold bindNew
  split
  case isTrue => exact .refl
  case isFalse h => exact .single (.bind v t free (fun hv => h (occurs_iff.mpr hv)) hv ht)

theorem size_bindNew (s : TypeStore) (v : Nat) (t : Ty) : (s.bindNew v t).2.size = s.size := by
  unfold bindNew
  split
  · rfl
  · exact size_bind s v t

section Steps

variable {step : Ty → Ty → TypeStore → Bool × TypeStore}

theorem forAll₂_cons (as bs : List Ty) :
    forAll₂ step (a :: as) (b :: bs) s =
      if (step a b s).1 then forAll₂ step as bs (step a b s).2 else (false, (step a b s).2) := by
  rw [forAll₂]
  split <;> simp_all

inductive Heads (step : Ty → Ty → TypeStore → Bool × TypeStore) (s : TypeStore) :
    Ty → Ty → Bool × TypeStore → Prop where
  | error {a b : Ty} (h : a = .error ∨ b = .error) : Heads step s a b (true, s)
  | same (v : Nat) : Heads step s (.var v) (.var v) (true, s)
  | left {v : Nat} {t : Ty} (h : t ≠ .var v) : Heads step s (.var v) t (s.bindNew v t)
  | right {v : Nat} {t : Ty} (h : t ≠ .var v) : Heads step s t (.var v) (s.bindNew v t)
  | parts {a b : Ty} (h : a.SameHead b) : Heads step s a b (forAll₂ step a.parts b.parts s)
  | clash {a b : Ty} (ha : ∀ v, a ≠ .var v) (hb : ∀ v, b ≠ .var v) (h : ¬ a.SameHead b) :
      Heads step s a b (false, s)

theorem unifyHeads_heads (step : Ty → Ty → TypeStore → Bool × TypeStore) (s : TypeStore)
    (a b : Ty) : Heads step s a b (s.unifyHeads step a b) := by
  cases a with
  | error => exact .error (.inl rfl)
  | var v =>
    cases b with
    | error => exact .error (.inr rfl)
    | var w =>
      by_cases h : v = w
      · subst h
        have heq : s.unifyHeads step (.var v) (.var v) = (true, s) := by simp [unifyHeads]
        rw [heq]
        exact .same v
      · have heq : s.unifyHeads step (.var v) (.var w) = s.bindNew v (.var w) := by
          simp [unifyHeads, h]
        rw [heq]
        exact .left (by simpa using Ne.symm h)
    | named n bs => exact .left (by simp)
    | function p' r' => exact .left (by simp)
    | tuple bs => exact .left (by simp)
  | named m as =>
    cases b with
    | error => exact .error (.inr rfl)
    | var w => exact .right (by simp)
    | named n bs =>
      by_cases h : m = n ∧ as.length = bs.length
      · have heq : s.unifyHeads step (.named m as) (.named n bs) = forAll₂ step as bs s := by
          simp [unifyHeads, h.1, h.2]
        rw [heq]
        exact .parts h
      · have heq : s.unifyHeads step (.named m as) (.named n bs) = (false, s) := by
          simp [unifyHeads, h]
        rw [heq]
        exact .clash (by simp) (by simp) h
    | function p' r' => exact .clash (by simp) (by simp) id
    | tuple bs => exact .clash (by simp) (by simp) id
  | function p r =>
    cases b with
    | error => exact .error (.inr rfl)
    | var w => exact .right (by simp)
    | named n bs => exact .clash (by simp) (by simp) id
    | function p' r' => exact .parts trivial
    | tuple bs => exact .clash (by simp) (by simp) id
  | tuple as =>
    cases b with
    | error => exact .error (.inr rfl)
    | var w => exact .right (by simp)
    | named n bs => exact .clash (by simp) (by simp) id
    | function p' r' => exact .clash (by simp) (by simp) id
    | tuple bs =>
      by_cases h : as.length = bs.length
      · have heq : s.unifyHeads step (.tuple as) (.tuple bs) = forAll₂ step as bs s := by
          simp [unifyHeads, h]
        rw [heq]
        exact .parts h
      · have heq : s.unifyHeads step (.tuple as) (.tuple bs) = (false, s) := by
          simp [unifyHeads, h]
        rw [heq]
        exact .clash (by simp) (by simp) h

theorem forAll₂_binds {as bs : List Ty} (hs : Closed P s) (has : ∀ a ∈ as, P a)
    (hbs : ∀ b ∈ bs, P b) (hstep : ∀ a b s, Closed P s → P a → P b →
      Relation.ReflTransGen (Binds P) s (step a b s).2) :
    Relation.ReflTransGen (Binds P) s (forAll₂ step as bs s).2 := by
  induction as generalizing bs s with
  | nil => exact .refl
  | cons a as ih =>
    cases bs with
    | nil => exact .refl
    | cons b bs =>
      obtain ⟨ha, has⟩ := List.forall_mem_cons.mp has
      obtain ⟨hb, hbs⟩ := List.forall_mem_cons.mp hbs
      have hfirst := hstep a b s hs ha hb
      rw [forAll₂_cons]
      split
      · exact hfirst.trans (ih (closed_of_binds hfirst hs) has hbs)
      · exact hfirst

theorem size_forAll₂ (hstep : ∀ a b s, (step a b s).2.size = s.size) (as bs : List Ty)
    (s : TypeStore) : (forAll₂ step as bs s).2.size = s.size := by
  induction as generalizing bs s with
  | nil => rfl
  | cons a as ih =>
    cases bs with
    | nil => rfl
    | cons b bs =>
      rw [forAll₂_cons]
      split
      · exact (ih bs _).trans (hstep a b s)
      · exact hstep a b s

end Steps

theorem size_unifyWith (n : Nat) (a b : Ty) (s : TypeStore) :
    (unifyWith n a b s).2.size = s.size := by
  induction n generalizing a b s with
  | zero => rfl
  | succ n ih =>
    have hheads := unifyHeads_heads (unifyWith n) s (s.shallow a) (s.shallow b)
    rw [unifyWith]
    generalize s.unifyHeads (unifyWith n) (s.shallow a) (s.shallow b) = r at hheads
    generalize s.shallow a = x at hheads
    generalize s.shallow b = y at hheads
    cases hheads with
    | error => rfl
    | same v => rfl
    | left => exact size_bindNew s _ _
    | right => exact size_bindNew s _ _
    | parts => exact size_forAll₂ (fun a b s => ih a b s) _ _ s
    | clash => rfl

def Hereditary (P : Ty → Prop) : Prop := ∀ t u, u ∈ t.parts → P t → P u

theorem unifyWith_binds_of_closed (hP : Hereditary P) (n : Nat) (hs : Closed P s) (ha : P a)
    (hb : P b) : Relation.ReflTransGen (Binds P) s (unifyWith n a b s).2 := by
  induction n generalizing a b s with
  | zero => exact .refl
  | succ n ih =>
    have hx : P (s.shallow a) := shallow_all hs.bound ha
    have hy : P (s.shallow b) := shallow_all hs.bound hb
    have hfree : ∀ t v, s.shallow t = .var v → s.binding? v = none :=
      fun t v => shallow_free hs.acyclic
    have hheads := unifyHeads_heads (unifyWith n) s (s.shallow a) (s.shallow b)
    rw [unifyWith]
    generalize s.unifyHeads (unifyWith n) (s.shallow a) (s.shallow b) = r at hheads
    generalize hxa : s.shallow a = x at hx hheads
    generalize hyb : s.shallow b = y at hy hheads
    cases hheads with
    | error => exact .refl
    | same v => exact .refl
    | left => exact bindNew_binds (hfree a _ hxa) hx hy
    | right => exact bindNew_binds (hfree b _ hyb) hy hx
    | parts =>
      exact forAll₂_binds hs (fun u hu => hP x u hu hx) (fun u hu => hP y u hu hy)
        fun a b s hs ha hb => ih hs ha hb
    | clash => exact .refl

theorem unifyWith_binds (hP : Hereditary P) (n : Nat) (hs : WellBound P s) (ha : P a) (hb : P b) :
    Relation.ReflTransGen (Binds P) s (unifyWith n a b s).2 :=
  unifyWith_binds_of_closed hP n hs.closed ha hb

structure Plain (d k : Nat) (t : Ty) : Prop where
  depth : t.depth ≤ d
  errorFree : t.hasError = false
  allocated : ∀ v ∈ t.vars, v < k

theorem hereditary_plain (d k : Nat) : Hereditary (Plain d k) := by
  intro t u hu ht
  refine ⟨?_, Ty.hasError_part ht.errorFree hu, fun v hv => ht.allocated v (Ty.vars_part hu hv)⟩
  exact Nat.le_trans (Nat.le_of_lt (Ty.depth_part hu)) ht.depth

theorem zonk_ne_var (head : ∀ w, t = .var w → s.binding? w = none) (ht : t ≠ .var v) :
    s.zonk t ≠ .var v := by
  rw [zonk_eq_subst]
  cases t with
  | var w =>
    rw [Ty.subst, image_free (head w rfl)]
    exact ht
  | named name args => simp [Ty.subst]
  | function param ret => simp [Ty.subst]
  | tuple items => simp [Ty.subst]
  | error => simp [Ty.subst]

theorem not_occurs (hσ : Satisfies σ s) (head : ∀ w, t = .var w → s.binding? w = none)
    (ht : t ≠ .var v) (heq : σ v = t.subst σ) : v ∉ (s.zonk t).vars := by
  intro hv
  -- `σ v` would be deeper than itself
  have hlt : (σ v).depth < ((s.zonk t).subst σ).depth :=
    Ty.depth_lt_subst hv (zonk_ne_var head ht)
  rw [subst_zonk hσ, ← heq] at hlt
  exact Nat.lt_irrefl _ hlt

theorem satisfies_bind (hσ : Satisfies σ s) (heq : σ v = t.subst σ) : Satisfies σ (s.bind v t) := by
  intro w u hw
  rw [binding?_bind] at hw
  split at hw
  case isTrue h =>
    obtain rfl : t = u := by simpa using hw
    rw [h.1, heq]
  case isFalse => exact hσ w u hw

theorem subst_eq_of_satisfies_bind (hv : v < s.size) (hσ : Satisfies σ (s.bind v t)) :
    σ v = t.subst σ :=
  hσ v t (by rw [binding?_bind, if_pos ⟨rfl, hv⟩])

theorem bindNew_sound (hv : v < s.size) (hr : (s.bindNew v t).1 = true)
    (hσ : Satisfies σ (s.bindNew v t).2) : σ v = t.subst σ := by
  unfold bindNew at hr hσ
  split at hr
  case isTrue => cases hr
  case isFalse h =>
    rw [if_neg h] at hσ
    exact subst_eq_of_satisfies_bind hv hσ

theorem forAll₂_sound {step : Ty → Ty → TypeStore → Bool × TypeStore} {k : Nat} {as bs : List Ty}
    (hbinds : ∀ a b s, Closed P s → P a → P b →
      Relation.ReflTransGen (Binds P) s (step a b s).2)
    (hstep : ∀ a b s, Closed P s → s.size = k → P a → P b → (step a b s).1 = true →
      Satisfies σ (step a b s).2 → a.subst σ = b.subst σ)
    (hs : Closed P s) (hk : s.size = k) (has : ∀ a ∈ as, P a) (hbs : ∀ b ∈ bs, P b)
    (hlen : as.length = bs.length) (hr : (forAll₂ step as bs s).1 = true)
    (hσ : Satisfies σ (forAll₂ step as bs s).2) :
    as.map (Ty.subst σ) = bs.map (Ty.subst σ) := by
  induction as generalizing bs s with
  | nil =>
    obtain rfl : bs = [] := List.length_eq_zero_iff.mp hlen.symm
    rfl
  | cons a as ih =>
    obtain ⟨b, bs, rfl⟩ := List.exists_cons_of_length_eq_add_one hlen.symm
    obtain ⟨ha, has⟩ := List.forall_mem_cons.mp has
    obtain ⟨hb, hbs⟩ := List.forall_mem_cons.mp hbs
    rw [forAll₂_cons] at hr hσ
    split at hr
    case isFalse => cases hr
    case isTrue h =>
      rw [if_pos h] at hσ
      have hfirst := hbinds a b s hs ha hb
      have hs' := closed_of_binds hfirst hs
      have hmore := forAll₂_binds hs' has hbs hbinds
      have hhead := hstep a b s hs hk ha hb h (hσ.of_extends (extends_of_binds hmore))
      have hrest := ih hs' ((extends_of_binds hfirst).size.trans hk) has hbs
        (Nat.succ.inj hlen) hr hσ
      rw [List.map_cons, List.map_cons, hhead, hrest]

/-- If unification succeeds, its types are equal under every solution of what it leaves bound. -/
theorem unifyWith_sound {k n : Nat} (hP : Hereditary P) (errorFree : ¬P .error)
    (allocated : ∀ v, P (.var v) → v < k) (hs : Closed P s) (hk : s.size = k) (ha : P a) (hb : P b)
    (hr : (unifyWith n a b s).1 = true) (hσ : Satisfies σ (unifyWith n a b s).2) :
    a.subst σ = b.subst σ := by
  induction n generalizing a b s with
  | zero => cases hr
  | succ n ih =>
    have hx : P (s.shallow a) := shallow_all hs.bound ha
    have hy : P (s.shallow b) := shallow_all hs.bound hb
    have hσs := hσ.of_extends (extends_of_binds (unifyWith_binds_of_closed hP (n + 1) hs ha hb))
    rw [← subst_shallow hσs a, ← subst_shallow hσs b]
    have hheads := unifyHeads_heads (unifyWith n) s (s.shallow a) (s.shallow b)
    rw [unifyWith] at hr hσ
    generalize s.unifyHeads (unifyWith n) (s.shallow a) (s.shallow b) = r at hr hσ hheads
    generalize s.shallow a = x at hx hheads
    generalize s.shallow b = y at hy hheads
    cases hheads with
    | error h => rcases h with rfl | rfl <;> exact absurd ‹P .error› errorFree
    | same v => rfl
    | left => exact bindNew_sound (hk ▸ allocated _ hx) hr hσ
    | right => exact (bindNew_sound (hk ▸ allocated _ hy) hr hσ).symm
    | parts h =>
      refine (h.subst_eq_iff σ).mpr (forAll₂_sound (fun a b s => unifyWith_binds_of_closed hP n)
        (fun a b s hs hk ha hb => ih hs hk ha hb) hs hk (fun u hu => hP x u hu hx)
        (fun u hu => hP y u hu hy) h.length_parts hr hσ)
    | clash => cases hr

/-- What `r` comes to, for an equation between types and a substitution: if it succeeds, what it has
bound makes the equation hold, and it binds nothing else. -/
structure Solves (σ : Nat → Ty) (equation fueled : Prop) (s : TypeStore) (r : Bool × TypeStore) :
    Prop where
  sound : r.1 = true → Satisfies σ r.2 → equation
  complete : fueled → Satisfies σ s → equation → r.1 = true ∧ Satisfies σ r.2

theorem bindNew_solves (hv : v < s.size) (head : ∀ w, t = .var w → s.binding? w = none)
    (ht : t ≠ .var v) (fueled : Prop) :
    Solves σ (σ v = t.subst σ) fueled s (s.bindNew v t) := by
  refine ⟨bindNew_sound hv, fun _ hσ heq => ?_⟩
  have hout : ¬ s.occurs v t = true := fun h => not_occurs hσ head ht heq (occurs_iff.mp h)
  rw [bindNew, if_neg hout]
  exact ⟨rfl, satisfies_bind hσ heq⟩

section Fuel

/-- However many variables get bound to types in `P`, the type that `a` stands for is no deeper than `n`. -/
def Bounded (P : Ty → Prop) (n : Nat) (a : Ty) (s : TypeStore) : Prop :=
  ∀ s', Relation.ReflTransGen (Binds P) s s' → (s'.zonk a).depth ≤ n

theorem Bounded.mono {n : Nat} (h : Bounded P n a s) (hs : Relation.ReflTransGen (Binds P) s s') :
    Bounded P n a s' :=
  fun s'' hs' => h s'' (hs.trans hs')

theorem Bounded.part {n : Nat} (h : Bounded P (n + 1) a s) (hs : Closed P s)
    (hu : u ∈ (s.shallow a).parts) : Bounded P n u s := by
  intro s' hs'
  have hσ : Satisfies s'.image s' := satisfies_image (closed_of_binds hs' hs).acyclic
  have hsame : s'.zonk (s.shallow a) = s'.zonk a := by
    rw [zonk_eq_subst, zonk_eq_subst, subst_shallow (hσ.of_extends (extends_of_binds hs'))]
  have hlt : (s'.zonk u).depth < (s'.zonk (s.shallow a)).depth := by
    rw [zonk_eq_subst, zonk_eq_subst]
    exact Ty.depth_part (Ty.parts_subst s'.image hu)
  have hle := h s' hs'
  rw [hsame] at hlt
  omega

theorem bounded_of_depth {d : Nat} (hP : ∀ t, P t → t.depth ≤ d) (hs : WellBound P s)
    (ha : a.depth ≤ d) : Bounded P ((s.size + 1) * d) a s := by
  intro s' hs'
  have hsize : s'.size = s.size := (extends_of_binds hs').size
  have hd : 0 < d := Nat.lt_of_lt_of_le a.depth_pos ha
  have hle := depth_zonk_le hd (fun v t hv => hP t ((wellBound_of_binds hs' hs).bound v t hv)) a
  rw [hsize] at hle
  rw [Nat.succ_mul]
  omega

variable {d k n : Nat}

/-- However many variables get bound, the type that `a` stands for is no deeper than `n`. -/
def Fueled (d k n : Nat) (a : Ty) (s : TypeStore) : Prop :=
  ∀ s', Relation.ReflTransGen (Binds (Plain d k)) s s' → (s'.zonk a).depth ≤ n

theorem Fueled.mono (h : Fueled d k n a s) (hs : Relation.ReflTransGen (Binds (Plain d k)) s s') :
    Fueled d k n a s' :=
  Bounded.mono h hs

theorem Fueled.part (h : Fueled d k (n + 1) a s) (hs : WellBound (Plain d k) s)
    (hu : u ∈ (s.shallow a).parts) : Fueled d k n u s :=
  Bounded.part h hs.closed hu

theorem fueled_of_depth (hs : WellBound (Plain d s.size) s) (ha : a.depth ≤ d) :
    Fueled d s.size ((s.size + 1) * d) a s :=
  bounded_of_depth (fun _ h => h.depth) hs ha

theorem forAll₂_solves {as bs : List Ty}
    (hstep : ∀ a b s, WellBound (Plain d k) s → s.size = k → Plain d k a → Plain d k b →
      Solves σ (a.subst σ = b.subst σ) (Fueled d k n a s) s (unifyWith n a b s))
    (hs : WellBound (Plain d k) s) (hk : s.size = k) (has : ∀ a ∈ as, Plain d k a)
    (hbs : ∀ b ∈ bs, Plain d k b) (hlen : as.length = bs.length) :
    Solves σ (as.map (Ty.subst σ) = bs.map (Ty.subst σ)) (∀ a ∈ as, Fueled d k n a s) s
      (forAll₂ (unifyWith n) as bs s) := by
  induction as generalizing bs s with
  | nil =>
    obtain rfl : bs = [] := List.length_eq_zero_iff.mp hlen.symm
    exact ⟨fun _ _ => rfl, fun _ hσ _ => ⟨rfl, hσ⟩⟩
  | cons a as ih =>
    obtain ⟨b, bs, rfl⟩ := List.exists_cons_of_length_eq_add_one hlen.symm
    obtain ⟨ha, has⟩ := List.forall_mem_cons.mp has
    obtain ⟨hb, hbs⟩ := List.forall_mem_cons.mp hbs
    have hfirst := hstep a b s hs hk ha hb
    have hbinds := unifyWith_binds (hereditary_plain d k) n hs ha hb
    have hs' := wellBound_of_binds hbinds hs
    have hk' := (extends_of_binds hbinds).size.trans hk
    have hrest := ih hs' hk' has hbs (Nat.succ.inj hlen)
    -- what the later pairs bind leaves the bindings of the first pair as they are
    have hmore : Relation.ReflTransGen (Binds (Plain d k)) _ _ :=
      forAll₂_binds hs'.closed has hbs fun a b s hs ha hb =>
        unifyWith_binds_of_closed (hereditary_plain d k) n hs ha hb
    rw [forAll₂_cons]
    refine ⟨fun hr hσ => ?_, fun hf hσ heq => ?_⟩
    · split at hr
      case isTrue h =>
        rw [if_pos h] at hσ
        have hhead := hfirst.sound h (hσ.of_extends (extends_of_binds hmore))
        rw [List.map_cons, List.map_cons, hhead, hrest.sound hr hσ]
      case isFalse => cases hr
    · rw [List.map_cons, List.map_cons, List.cons.injEq] at heq
      obtain ⟨hok, hσ'⟩ := hfirst.complete (hf a (by simp)) hσ heq.1
      rw [if_pos hok]
      exact hrest.complete (fun x hx => (hf x (by simp [hx])).mono hbinds) hσ' heq.2

theorem unifyWith_solves (hs : WellBound (Plain d k) s) (hk : s.size = k) (ha : Plain d k a)
    (hb : Plain d k b) :
    Solves σ (a.subst σ = b.subst σ) (Fueled d k n a s) s (unifyWith n a b s) := by
  induction n generalizing a b s with
  | zero =>
    refine ⟨by rintro ⟨⟩, fun hf _ _ => ?_⟩
    exact absurd (hf s .refl) (Nat.not_le_of_lt (Ty.depth_pos _))
  | succ n ih =>
    have hx : Plain d k (s.shallow a) := shallow_all hs.closed.bound ha
    have hy : Plain d k (s.shallow b) := shallow_all hs.closed.bound hb
    have hfree : ∀ t v, s.shallow t = .var v → s.binding? v = none :=
      fun t v => shallow_free hs.acyclic
    have hvar : ∀ v, Plain d k (.var v) → v < s.size :=
      fun v hv => hk ▸ hv.allocated v (by simp [Ty.vars])
    have hbinds := unifyWith_binds (hereditary_plain d k) (n + 1) hs ha hb
    have hheads := unifyHeads_heads (unifyWith n) s (s.shallow a) (s.shallow b)
    -- both sides of the equation may be followed to their heads, before and after
    suffices hsolves : Solves σ ((s.shallow a).subst σ = (s.shallow b).subst σ)
        (∀ u ∈ (s.shallow a).parts, Fueled d k n u s) s (unifyWith (n + 1) a b s) by
      refine ⟨fun hr hσ => ?_, fun hf hσ heq => ?_⟩
      · have hσs := hσ.of_extends (extends_of_binds hbinds)
        rw [← subst_shallow hσs a, ← subst_shallow hσs b]
        exact hsolves.sound hr hσ
      · rw [← subst_shallow hσ a, ← subst_shallow hσ b] at heq
        exact hsolves.complete (fun u hu => hf.part hs hu) hσ heq
    rw [unifyWith]
    generalize s.unifyHeads (unifyWith n) (s.shallow a) (s.shallow b) = r at hheads
    generalize hxa : s.shallow a = x at hx hheads
    generalize hyb : s.shallow b = y at hy hheads
    cases hheads with
    | error h =>
      rcases h with rfl | rfl
      · exact absurd hx.errorFree (by simp [Ty.hasError])
      · exact absurd hy.errorFree (by simp [Ty.hasError])
    | same v => exact ⟨fun _ _ => rfl, fun _ hσ _ => ⟨rfl, hσ⟩⟩
    | left h => exact bindNew_solves (hvar _ hx) (fun w hw => hfree b w (hyb.trans hw)) h _
    | right h =>
      have hsolves : Solves σ _ (∀ u ∈ x.parts, Fueled d k n u s) s _ :=
        bindNew_solves (hvar _ hy) (fun w hw => hfree a w (hxa.trans hw)) h _
      exact ⟨fun hr hσ => (hsolves.sound hr hσ).symm,
        fun hf hσ heq => hsolves.complete hf hσ heq.symm⟩
    | parts h =>
      have hsolves := forAll₂_solves (fun a b s hs hk ha hb => ih hs hk ha hb) hs hk
        (fun u hu => hereditary_plain d k x u hu hx) (fun u hu => hereditary_plain d k y u hu hy)
        h.length_parts
      exact ⟨fun hr hσ => (h.subst_eq_iff σ).mpr (hsolves.sound hr hσ),
        fun hf hσ heq => hsolves.complete hf hσ ((h.subst_eq_iff σ).mp heq)⟩
    | clash hax hby h =>
      exact ⟨by simp, fun _ _ heq => absurd (Ty.sameHead_of_subst_eq hax hby heq) h⟩

end Fuel

theorem le_foldl_max (ts : List (Option Ty)) (d : Nat) :
    d ≤ ts.foldl (fun d t? => max d (t?.elim 0 Ty.depth)) d := by
  induction ts generalizing d with
  | nil => exact Nat.le_refl d
  | cons t? ts ih => exact Nat.le_trans (Nat.le_max_left _ _) (ih _)

theorem depth_le_foldl_max {ts : List (Option Ty)} (h : some t ∈ ts) (d : Nat) :
    t.depth ≤ ts.foldl (fun d t? => max d (t?.elim 0 Ty.depth)) d := by
  induction ts generalizing d with
  | nil => cases h
  | cons t? ts ih =>
    rcases List.mem_cons.mp h with rfl | h
    · exact Nat.le_trans (Nat.le_max_right _ _) (le_foldl_max ts _)
    · exact ih h _

theorem depth_le_of_bound (h : s.binding? v = some t) : t.depth ≤ s.depth := by
  rw [depth, ← Array.foldl_toList]
  refine depth_le_foldl_max ?_ 0
  have hget : s.bindings[v]? = some (some t) := by
    simpa [binding?, Option.join_eq_some_iff] using h
  exact Array.mem_toList_iff.mpr (Array.mem_of_getElem? hget)

def Allocated (s : TypeStore) (t : Ty) : Prop := ∀ v ∈ t.vars, v < s.size

instance (s : TypeStore) (t : Ty) : Decidable (s.Allocated t) :=
  inferInstanceAs (Decidable (∀ v ∈ t.vars, v < s.size))

/-- The stores that creating variables, making types equal (which may fail half-way) and taking
instances of schemes lead to. -/
inductive Reachable : TypeStore → Prop where
  | empty : Reachable {}
  | fresh {s : TypeStore} : Reachable s → Reachable s.fresh.2
  | unify {s : TypeStore} {a b : Ty} :
      Reachable s → s.Allocated a → s.Allocated b → Reachable (s.unify a b).2
  | instantiate {s : TypeStore} (scheme : Scheme) :
      Reachable s → Reachable (s.instantiate scheme).2

theorem size_fresh (s : TypeStore) : s.fresh.2.size = s.size + 1 := by
  simp [fresh, size]

theorem size_extend (s : TypeStore) (n : Nat) : (s.extend n).size = s.size + n := by
  induction n generalizing s with
  | zero => rfl
  | succ n ih =>
    rw [extend, ih, size_fresh]
    omega

theorem WellBound.allocated_of_binding? (h : WellBound s.Allocated s) (hsize : s.size ≤ s'.size)
    (hbinding : ∀ v, s'.binding? v = s.binding? v) : WellBound s'.Allocated s' := by
  refine ⟨h.acyclic.of_binding? hbinding, fun v t hv w hw => ?_⟩
  exact Nat.lt_of_lt_of_le (h.bound v t (hbinding v ▸ hv) w hw) hsize

theorem hereditary_allocated (s : TypeStore) : Hereditary s.Allocated :=
  fun _ _ hu ht v hv => ht v (Ty.vars_part hu hv)

theorem Reachable.wellBound (h : Reachable s) : WellBound s.Allocated s := by
  induction h with
  | empty => exact ⟨⟨id, fun v t hv => by simp [binding?] at hv⟩, fun v t hv => by simp [binding?] at hv⟩
  | @fresh s _ ih => exact ih.allocated_of_binding? (by rw [size_fresh]; omega) s.binding?_fresh
  | @unify s a b _ ha hb ih =>
    have hbinds := unifyWith_binds (hereditary_allocated s) (s.depthBound a b + 1) ih ha hb
    have hsize := (extends_of_binds hbinds).size
    exact (wellBound_of_binds hbinds ih).mono fun t ht v hv =>
      Nat.lt_of_lt_of_le (ht v hv) (Nat.le_of_eq hsize.symm)
  | @instantiate s scheme _ ih =>
    have hsize := s.size_extend scheme.vars.length
    exact ih.allocated_of_binding? (Nat.le.intro hsize.symm) (s.binding?_extend _)

theorem unify_most_general (reachable : Reachable s)
    (errorFree : ∀ v t, s.binding? v = some t → t.hasError = false)
    (ha : a.hasError = false) (hb : b.hasError = false)
    (hav : s.Allocated a) (hbv : s.Allocated b) :
    ((s.unify a b).1 = true ↔ ∃ σ, Satisfies σ s ∧ a.subst σ = b.subst σ) ∧
    ((s.unify a b).1 = true →
      (s.unify a b).2.zonk a = (s.unify a b).2.zonk b ∧
      ∀ σ, Satisfies σ s → a.subst σ = b.subst σ → Satisfies σ (s.unify a b).2) := by
  have hwell := reachable.wellBound
  let d := max s.depth (max a.depth b.depth)
  have hs : WellBound (Plain d s.size) s := ⟨hwell.acyclic, fun v t hv =>
    ⟨(depth_le_of_bound hv).trans (Nat.le_max_left _ _), errorFree v t hv, hwell.bound v t hv⟩⟩
  have hpa : Plain d s.size a :=
    ⟨(Nat.le_max_left _ _).trans (Nat.le_max_right s.depth _), ha, hav⟩
  have hpb : Plain d s.size b :=
    ⟨(Nat.le_max_right _ _).trans (Nat.le_max_right s.depth _), hb, hbv⟩
  have hsolves : ∀ σ, Solves σ _ _ s (s.unify a b) := fun σ =>
    unifyWith_solves (n := s.depthBound a b + 1) hs rfl hpa hpb
  have hbinds := unifyWith_binds (hereditary_plain d s.size) (s.depthBound a b + 1) hs hpa hpb
  have hfueled : Fueled d s.size (s.depthBound a b + 1) a s := fun s' hs' =>
    (fueled_of_depth hs hpa.depth s' hs').trans (Nat.le_succ _)
  have himage := satisfies_image (wellBound_of_binds hbinds hs).acyclic
  refine ⟨⟨fun hok => ⟨_, himage.of_extends (extends_of_binds hbinds),
    (hsolves _).sound hok himage⟩, ?_⟩, fun hok => ⟨?_, ?_⟩⟩
  · rintro ⟨σ, hσ, heq⟩
    exact ((hsolves σ).complete hfueled hσ heq).1
  · rw [zonk_eq_subst, zonk_eq_subst]
    exact (hsolves _).sound hok himage
  · intro σ hσ heq
    exact ((hsolves σ).complete hfueled hσ heq).2

def listStore : TypeStore := { bindings := #[some (.list (.var 1)), none] }

theorem listStore_reachable : Reachable listStore :=
  .unify (a := .var 0) (b := .list (.var 1)) (.fresh (.fresh .empty)) (by decide) (by decide)

theorem listStore_unifies_with_list_of_int :
    Reachable listStore ∧
    (∀ v t, listStore.binding? v = some t → t.hasError = false) ∧
    listStore.Allocated (.var 0) ∧ listStore.Allocated (.list .int) ∧
    (∃ σ, Satisfies σ listStore ∧ σ 0 = .list .int) ∧
    ∀ σ, Satisfies σ listStore → σ 0 = .list .int →
      Satisfies σ (listStore.unify (.var 0) (.list .int)).2 := by
  have hbound : ∀ v t, listStore.binding? v = some t → t.hasError = false := by
    intro v t hv
    rcases v with _ | _ | v
    · obtain rfl : Ty.list (.var 1) = t := by simpa [listStore, binding?] using hv
      rfl
    · simp [listStore, binding?] at hv
    · simp [listStore, binding?] at hv
  have hvar : listStore.Allocated (.var 0) := by decide
  have hlist : listStore.Allocated (.list .int) := by decide
  have hok : (listStore.unify (.var 0) (.list .int)).1 = true := by decide
  have hgeneral := unify_most_general listStore_reachable hbound rfl rfl hvar hlist
  exact ⟨listStore_reachable, hbound, hvar, hlist, hgeneral.1.mp hok, (hgeneral.2 hok).2⟩

end ScriptAnalyzer.TypeStore

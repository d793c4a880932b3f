import ScriptAnalyzer.Proofs.Typing.Extents

/-!
Safe parts of the checker: from sound states they lead to sound states, and to results that refer to
what there is then. What there is to refer to only grows.
-/

namespace ScriptAnalyzer

open Referring
open TypeStore (WellBound)

variable {n : Nat} {k k' : Extent} {s : CheckerState}

namespace TypeStore

variable {s : TypeStore} {t : Ty}

theorem allocated_shallow (hs : WellBound s.Allocated s) (ht : s.Allocated t) :
    s.Allocated (s.shallow t) :=
  shallow_all hs.closed.bound ht

theorem allocated_zonk (hs : WellBound s.Allocated s) (ht : s.Allocated t) : s.Allocated (s.zonk t) := by
  unfold zonk
  induction s.size generalizing t with
  | zero => exact ht
  | succ n ih =>
    intro v hv
    obtain ⟨x, hx, hvx⟩ := Ty.exists_of_mem_vars_subst hv
    cases hb : s.binding? x with
    | none =>
      rw [hb] at hvx
      obtain rfl : v = x := by simpa [Ty.vars] using hvx
      exact ht v hx
    | some u =>
      rw [hb] at hvx
      exact ih (hs.bound x u hb) v hvx

theorem wellBound_unify {a b : Ty} (hs : WellBound s.Allocated s) (ha : s.Allocated a)
    (hb : s.Allocated b) : WellBound (s.unify a b).2.Allocated (s.unify a b).2 :=
  (Operates.unify ha hb).continues hs |>.wellBound

theorem vars_instantiate {scheme : Scheme} (h : ∀ v ∈ scheme.type.vars, v ∈ scheme.vars ∨ v < s.size) :
    (s.instantiate scheme).2.Allocated (s.instantiate scheme).1 := by
  have hsize : (s.instantiate scheme).2.size = s.size + scheme.vars.length := s.size_extend _
  intro w hw
  obtain ⟨v, hv, hwv⟩ := Ty.exists_of_mem_vars_subst hw
  rw [hsize]
  cases hi : scheme.vars.idxOf? v with
  | none =>
    have hlt := (h v hv).resolve_left (List.idxOf?_eq_none_iff.mp hi)
    obtain rfl : w = v := by simpa [hi, Ty.vars] using hwv
    omega
  | some i =>
    have hlt : i < scheme.vars.length := (List.idxOf?_eq_some_iff.mp hi).1
    obtain rfl : w = s.size + i := by simpa [hi, Ty.vars] using hwv
    omega

end TypeStore

namespace CheckerState

theorem Refers.sound {s' : CheckerState} (h : s'.Refers k) (hk : k ≤ s'.extent n)
    (hfaults : s'.faults = []) (hstore : WellBound s'.store.Allocated s'.store) : s'.Sound n :=
  { h.mono hk with
    faultless := hfaults
    store := hstore }

theorem Sound.of_store {store : TypeStore} {faults : List Fault} (hs : s.Sound n)
    (hsize : s.store.size ≤ store.size) (hstore : WellBound store.Allocated store)
    (hfaults : faults = []) : Sound n { s with store, faults } :=
  Refers.sound (k := s.extent n)
    ⟨hs.binders, hs.entities, hs.scope, hs.typeVars, hs.abbreviations, hs.records⟩
    ⟨hsize, Nat.le_refl _, Nat.le_refl _⟩ hfaults hstore

theorem Sound.demand {fault : Fault} {inside : Bool} (hs : s.Sound n) (h : inside = true) :
    (s.demand fault inside).Sound n :=
  hs.of_store (Nat.le_refl _) hs.store (by rw [if_pos h, hs.faultless])

theorem Sound.readScope (hs : s.Sound n) : s.readScope.Sound n :=
  hs.demand (List.all_eq_true.mpr fun i hi => decide_eq_true (hs.scope i hi))

theorem Sound.of_records {records : CheckerRecords} (hs : s.Sound n)
    (h : records.Refer (s.extent n)) : Sound n { s with records } :=
  { hs with records := h }

theorem Sound.of_scope {scope : CheckerScope} (hs : s.Sound n)
    (h : Within (s.extent n) scope.binders) : Sound n { s with scope } :=
  { hs with scope := h }

theorem Sound.of_entities {entities : Entities} (hs : s.Sound n)
    (h : Within (s.extent n) entities.all) : Sound n { s with entities } :=
  { hs with entities := h }

theorem Sound.of_binders {binders : Array Binder} (hs : s.Sound n) (hsize : s.binders.size ≤ binders.size)
    (h : Within (s.extent n) binders.toList) : Sound n { s with binders } :=
  Refers.sound (k := s.extent n)
    ⟨h, hs.entities, hs.scope, hs.typeVars, hs.abbreviations, hs.records⟩
    ⟨Nat.le_refl _, hsize, Nat.le_refl _⟩ hs.faultless hs.store

theorem Sound.modifyBinder {index : Nat} {f : Binder → Binder} (hs : s.Sound n)
    (hf : ∀ b, Within (s.extent n) b → Within (s.extent n) (f b)) :
    Sound n { s with binders := s.binders.modify index f } ∧
      s.extent n ≤ extent n { s with binders := s.binders.modify index f } := by
  have hsize : s.binders.size ≤ (s.binders.modify index f).size := Nat.le_of_eq Array.size_modify.symm
  refine ⟨hs.of_binders hsize fun b hb => ?_, Nat.le_refl _, hsize, Nat.le_refl _⟩
  obtain ⟨i, hi⟩ := Array.getElem?_of_mem (Array.mem_toList_iff.mp hb)
  rw [Array.getElem?_modify] at hi
  have hold {i : Nat} {b : Binder} (h : s.binders[i]? = some b) : Within (s.extent n) b :=
    hs.binders b (Array.mem_toList_iff.mpr (Array.mem_of_getElem? h))
  split at hi
  · obtain ⟨b', hb', rfl⟩ := Option.map_eq_some_iff.mp hi
    exact hf b' (hold hb')
  · exact hold hi

/-- A new binder that can be named in `visible`. -/
theorem Sound.push (hs : s.Sound n) (visible : Span) (b : Binder) (hb : Within (s.extent n) b)
    (hvisible : Within (s.extent n) visible) :
    let s' := { s with
      binders := s.binders.push b
      scope.binders := s.binders.size :: s.scope.binders
      records.visible := (visible, s.binders.size) :: s.records.visible }
    s'.Sound n ∧ s.extent n ≤ s'.extent n ∧ Within (s'.extent n) s.binders.size := by
  intro s'
  have hsize : s'.binders.size = s.binders.size + 1 := Array.size_push ..
  have hle : s.extent n ≤ s'.extent n :=
    ⟨Nat.le_refl _, (Nat.le_succ _).trans (Nat.le_of_eq hsize.symm), Nat.le_refl _⟩
  have hindex : Within (s'.extent n) s.binders.size :=
    Nat.lt_of_lt_of_le (Nat.lt_succ_self _) (Nat.le_of_eq hsize.symm)
  have hold : s.Refers (s'.extent n) := hs.toRefers.mono hle
  refine ⟨{ hold with
    binders := ?_
    scope := within_cons.mpr ⟨hindex, hold.scope⟩
    records := { hold.records with
      visible := within_cons.mpr ⟨⟨mono hle hvisible, hindex⟩, hold.records.visible⟩ }
    faultless := hs.faultless
    store := hs.store }, hle, hindex⟩
  rw [Array.toList_push]
  exact within_append.mpr ⟨hold.binders, within_singleton.mpr (mono hle hb)⟩

end CheckerState

namespace Checker

variable {α β : Type} [Referring α] [Referring β]

/-- From sound states with what `k` has, the checker leads to sound states, and to results that refer
to what there is then. -/
def Safe (n : Nat) (k : Extent) (p : Checker α) : Prop :=
  ∀ s : CheckerState, s.Sound n → k ≤ s.extent n →
    p.Yields s fun a s' => s'.Sound n ∧ s.extent n ≤ s'.extent n ∧ Within (s'.extent n) a

namespace Safe

variable {p : Checker α} {f : α → Checker β}

theorem mono (h : Safe n k p) (hk : k ≤ k') : Safe n k' p := fun s hs hks => h s hs (hk.trans hks)

theorem pure {a : α} (h : Within k a) : Safe n k (Pure.pure a) :=
  fun _ hs hk => ⟨hs, le_refl _, Referring.mono hk h⟩

theorem bind (hp : Safe n k p) (hf : ∀ a k', k ≤ k' → Within k' a → Safe n k' (f a)) :
    Safe n k (p >>= f) := by
  intro s hs hk
  refine (hp s hs hk).bind fun a s' ⟨hs', hle, ha⟩ => ?_
  exact (hf a _ (hk.trans hle) ha s' hs' (le_refl _)).mono fun b s'' ⟨hs'', hle', hb⟩ =>
    ⟨hs'', hle.trans hle', hb⟩

theorem next (hp : Safe n k p) {q : Checker β} (hq : Safe n k q) : Safe n k (p >>= fun _ => q) :=
  hp.bind fun _ _ hk _ => hq.mono hk

theorem map (hp : Safe n k p) {g : α → β} (hg : ∀ a k', k ≤ k' → Within k' a → Within k' (g a)) :
    Safe n k (g <$> p) := by
  intro s hs hk
  rw [yields_map]
  exact (hp s hs hk).mono fun a s' ⟨hs', hle, ha⟩ => ⟨hs', hle, hg a _ (hk.trans hle) ha⟩

theorem getBind {f : CheckerState → Checker α}
    (h : ∀ s : CheckerState, s.Sound n → k ≤ s.extent n → Safe n (s.extent n) (f s)) :
    Safe n k (get >>= f) :=
  fun s hs hk => h s hs hk s hs (le_refl _)

theorem modify {g : CheckerState → CheckerState} (h : ∀ s : CheckerState, s.Sound n → k ≤ s.extent n →
    (g s).Sound n ∧ s.extent n ≤ (g s).extent n) : Safe n k (modify g) :=
  fun s hs hk => ⟨(h s hs hk).1, (h s hs hk).2, trivial⟩

theorem withScope (h : Safe n k p) : Safe n k (withScope p) := by
  intro s hs hk
  simp only [Checker.withScope, yields_bind, yields_get, yields_modify, yields_pure]
  refine (h s hs hk).mono fun a s' h' => ?_
  obtain ⟨hs', hle, ha⟩ := h'
  refine ⟨hs'.of_scope ?_, hle, ha⟩
  exact Referring.mono hle hs.scope

theorem forM {α : Type} {f : α → Checker Unit} {as : List α} (h : ∀ a ∈ as, Safe n k (f a)) :
    Safe n k (as.forM f) := by
  simp only [List.forM_eq_forM]
  induction as with
  | nil => exact .pure trivial
  | cons a as ih =>
    obtain ⟨ha, has⟩ := List.forall_mem_cons.mp h
    rw [List.forM_cons]
    exact ha.next (ih has)

end Safe

/-! Types -/

variable {a b t : Ty} {span : Span}

theorem fresh_safe : Safe n k fresh := by
  intro s hs _
  have hsize : s.store.fresh.2.size = s.store.size + 1 := s.store.size_fresh
  have hle : s.store.size ≤ s.store.fresh.2.size := by omega
  refine ⟨hs.of_store hle ?_ hs.faultless, ⟨hle, Nat.le_refl _, Nat.le_refl _⟩, ?_⟩
  · exact hs.store.allocated_of_binding? hle s.store.binding?_fresh
  · exact Ty.within_var.mpr (Nat.lt_of_lt_of_le (Nat.lt_succ_self _) (Nat.le_of_eq hsize.symm))

theorem shallow_safe (ht : Within k t) : Safe n k (shallow t) :=
  fun _ hs hk => ⟨hs, le_refl _, TypeStore.allocated_shallow hs.store (mono hk ht)⟩

theorem zonk_safe (ht : Within k t) : Safe n k (zonk t) :=
  fun _ hs hk => ⟨hs, le_refl _, TypeStore.allocated_zonk hs.store (mono hk ht)⟩

/-- Nothing is said about the type that comes out. -/
theorem zonkBind_safe {f : Ty → Checker α} (h : ∀ u, Safe n k (f u)) (t : Ty) :
    Safe n k (zonk t >>= f) :=
  fun s hs hk => h (s.store.zonk t) s hs hk

theorem instantiate_safe {scheme : Scheme} (h : Within k scheme) : Safe n k (instantiate scheme) := by
  intro s hs hk
  have hsize : (s.store.instantiate scheme).2.size = s.store.size + scheme.vars.length :=
    s.store.size_extend _
  have hle : s.store.size ≤ (s.store.instantiate scheme).2.size := by omega
  refine ⟨hs.of_store hle ?_ hs.faultless, ⟨hle, Nat.le_refl _, Nat.le_refl _⟩, ?_⟩
  · exact ((TypeStore.Operates.instantiate s.store scheme).continues hs.store).wellBound
  · exact TypeStore.vars_instantiate (mono hk h)

theorem unify_safe (ha : Within k a) (hb : Within k b) : Safe n k (unify a b) := by
  intro s hs hk
  have ha' : s.store.Allocated a := mono hk ha
  have hb' : s.store.Allocated b := mono hk hb
  have hsize := Nat.le_of_eq (TypeStore.size_unify s.store a b).symm
  refine ⟨hs.of_store hsize (TypeStore.wellBound_unify hs.store ha' hb') ?_,
    ⟨hsize, Nat.le_refl _, Nat.le_refl _⟩, trivial⟩
  rw [CheckerState.demand, if_pos (TypeStore.unifyInside_of_wellBound hs.store ha' hb'), hs.faultless]

theorem unifies_safe (ha : Within k a) (hb : Within k b) : Safe n k (unifies a b) :=
  fun _ hs hk => ⟨hs.demand (TypeStore.unifyInside_of_wellBound hs.store (mono hk ha) (mono hk hb)),
    le_refl _, trivial⟩

/-! Binders -/

theorem binderAt_safe {index : Nat} (h : Within k index) : Safe n k (binderAt? index) := by
  intro s hs hk
  refine ⟨hs.demand (decide_eq_true (mono hk h)), le_refl _, fun b hb => ?_⟩
  exact hs.binders b (Array.mem_toList_iff.mpr (Array.mem_of_getElem? hb))

theorem readScope_safe : Safe n k readScope := fun _ hs _ => ⟨hs.readScope, le_refl _, trivial⟩

/-! Records -/

theorem report_safe (cause : TypeError.Cause) (h : Within k span) : Safe n k (report cause span) :=
  .modify fun _ hs hk => ⟨hs.of_records { hs.records with
    errors := within_cons.mpr ⟨mono hk h, hs.records.errors⟩ }, le_refl _⟩

theorem mention_safe {target : Target} (h : Within k span) (htarget : Within k target) :
    Safe n k (mention span target) :=
  .modify fun _ hs hk => ⟨hs.of_records { hs.records with
    mentions := within_cons.mpr ⟨⟨mono hk h, mono hk htarget⟩, hs.records.mentions⟩ }, le_refl _⟩

theorem declare_safe {target : Target} (h : Within k span) (htarget : Within k target) :
    Safe n k (declare span target) :=
  .modify fun _ hs hk => ⟨hs.of_records { hs.records with
    mentions := within_cons.mpr ⟨⟨mono hk h, mono hk htarget⟩, hs.records.mentions⟩
    declarations := within_cons.mpr ⟨⟨mono hk h, mono hk htarget⟩, hs.records.declarations⟩ }, le_refl _⟩

theorem recordMember_safe {site : MemberSite} (h : Within k site) : Safe n k (recordMember site) :=
  .modify fun _ hs hk => ⟨hs.of_records { hs.records with
    members := within_cons.mpr ⟨mono hk h, hs.records.members⟩ }, le_refl _⟩

theorem recordCall_safe {site : CallSite} (h : Within k site) : Safe n k (recordCall site) :=
  .modify fun _ hs hk => ⟨hs.of_records { hs.records with
    calls := within_cons.mpr ⟨mono hk h, hs.records.calls⟩ }, le_refl _⟩

theorem recordRegion_safe (h : Within k span) (path : String) : Safe n k (recordRegion span path) :=
  .modify fun _ hs hk => ⟨hs.of_records { hs.records with
    regions := within_cons.mpr ⟨mono (α := Span) hk h, hs.records.regions⟩ }, le_refl _⟩

theorem expect_safe (ha : Within k a) (hb : Within k b) (h : Within k span) :
    Safe n k (expect a b span) := by
  refine (unify_safe ha hb).bind fun ok k₁ h₁ _ => ?_
  cases ok with
  | true => exact .pure trivial
  | false =>
    refine (zonk_safe (mono h₁ ha)).bind fun _ k₂ h₂ _ => ?_
    refine (zonk_safe (mono (h₁.trans h₂) hb)).bind fun _ k₃ h₃ _ => ?_
    exact report_safe _ (mono ((h₁.trans h₂).trans h₃) h)

end Checker

end ScriptAnalyzer

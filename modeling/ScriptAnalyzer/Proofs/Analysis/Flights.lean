import Mathlib.Data.List.Nodup
import Mathlib.Logic.Function.Basic
import ScriptAnalyzer.Analysis.FileChecks
import ScriptAnalyzer.Analysis.Slot

/-!
Which analysis of a file goes on: the one that the slot holds, and no other.
-/

namespace ScriptAnalyzer

section

variable {ρ : Type} {e : FrontEnd ρ} {history : Nat → Text}

namespace FrontEnd

theorem analyze_of_readFailure {text : Text} {failure : Failure} (h : e.readFailure? text = some failure) :
    e.analyze text = .error failure := by
  rw [analyze, h]

theorem analyze_of_read {text : Text} (h : e.readFailure? text = none) : e.analyze text = e.check text := by
  rw [analyze, h]

end FrontEnd

namespace Slot

variable {slot : Slot ρ} {version : Nat} {text : Text}

/-- The version is the number of a text that the slot has had; `history` tells which. -/
def Knows (history : Nat → Text) (slot : Slot ρ) (version : Nat) (text : Text) : Prop :=
  version ≤ slot.version ∧ history version = text

structure Keeps (e : FrontEnd ρ) (history : Nat → Text) (slot : Slot ρ) : Prop where
  text : ∀ t, slot.text = some t → slot.Knows history slot.version t
  published : ∀ p, slot.published = some p → p.1 ≤ slot.version ∧ e.analyze (history p.1) = .ok p.2
  inFlight : ∀ f, slot.inFlight = some f → slot.Knows history f.version f.text
  pending : ∀ p, slot.pending = some p → slot.Knows history p.1 p.2

theorem keeps_empty (e : FrontEnd ρ) (history : Nat → Text) : Keeps e history {} where
  text := by simp
  published := by simp
  inFlight := by simp
  pending := by simp

theorem Knows.eq {t t' : Text} (h : slot.Knows history version t) (h' : slot.Knows history version t') :
    t = t' :=
  h.2.symm.trans h'.2

theorem publishedFor?_eq {result : ρ} (h : slot.publishedFor? version = some result) :
    slot.published = some (version, result) := by
  obtain ⟨p, hp, hresult⟩ := Option.map_eq_some_iff.mp h
  obtain ⟨hpublished, hversion⟩ := Option.filter_eq_some_iff.mp hp
  obtain ⟨v, r⟩ := p
  simp only [decide_eq_true_eq] at hversion
  rw [hpublished, ← hversion, ← hresult]

theorem Keeps.publishedFor {result : ρ} (hs : slot.Keeps e history)
    (hknown : slot.Knows history version text) (h : slot.publishedFor? version = some result) :
    e.analyze text = .ok result := by
  have hpublished := (hs.published _ (publishedFor?_eq h)).2
  rwa [hknown.2] at hpublished

theorem Keeps.extend (hs : slot.Keeps e history) (text : Text) {slot' : Slot ρ}
    (hversion : slot'.version = slot.version + 1) (htext : ∀ t, slot'.text = some t → t = text)
    (hpublished : slot'.published = slot.published) (hinFlight : slot'.inFlight = slot.inFlight)
    (hpending : slot'.pending = slot.pending) :
    ∃ history', slot'.Keeps e history' ∧ slot'.Knows history' slot'.version text ∧
      ∀ v t, slot.Knows history v t → slot'.Knows history' v t := by
  have hnew : slot'.Knows (Function.update history slot'.version text) slot'.version text :=
    ⟨Nat.le_refl _, Function.update_self ..⟩
  have hold : ∀ v, v ≤ slot.version → Function.update history slot'.version text v = history v := by
    intro v hv
    exact Function.update_of_ne (by omega) ..
  have hknows : ∀ v t, slot.Knows history v t →
      slot'.Knows (Function.update history slot'.version text) v t := by
    rintro v t ⟨hv, ht⟩
    exact ⟨by omega, by rw [hold v hv, ht]⟩
  refine ⟨_, ⟨?_, ?_, ?_, ?_⟩, hnew, hknows⟩
  · intro t ht
    rw [htext t ht]
    exact hnew
  · intro p hp
    obtain ⟨hle, hresult⟩ := hs.published p (hpublished ▸ hp)
    exact ⟨by omega, by rw [hold _ hle]; exact hresult⟩
  · intro f hf
    exact hknows _ _ (hs.inFlight f (hinFlight ▸ hf))
  · intro p hp
    exact hknows _ _ (hs.pending p (hpending ▸ hp))

theorem Keeps.observe (hs : slot.Keeps e history) (text : Text) :
    ∃ history', (slot.observe text).Keeps e history' ∧
      (slot.observe text).Knows history' (slot.observe text).version text ∧
      ∀ v t, slot.Knows history v t → (slot.observe text).Knows history' v t := by
  unfold Slot.observe
  split
  case isTrue hsame => exact ⟨history, hs, hs.text text hsame.1, fun _ _ => id⟩
  case isFalse => exact hs.extend text rfl (fun t ht => (Option.some.inj ht).symm) rfl rfl rfl

theorem Keeps.markDirty (hs : slot.Keeps e history) :
    ∃ history', slot.markDirty.Keeps e history' ∧
      ∀ v t, slot.Knows history v t → slot.markDirty.Knows history' v t := by
  obtain ⟨history', hkeeps, -, hknows⟩ := hs.extend (slot.text.getD [])
    (show slot.markDirty.version = slot.version + 1 from rfl)
    (fun t ht => by rw [show slot.text = some t from ht]; rfl) rfl rfl rfl
  exact ⟨history', hkeeps, hknows⟩

theorem observe_version_pos (slot : Slot ρ) (text : Text) : 0 < (slot.observe text).version := by
  unfold observe
  split
  case isTrue hsame => exact hsame.2
  case isFalse => exact Nat.succ_pos _

theorem observe_same (htext : slot.text = some text) (hversion : 0 < slot.version) :
    slot.observe text = slot := by
  rw [observe, if_pos ⟨htext, hversion⟩]

theorem observe_text (slot : Slot ρ) (text : Text) : (slot.observe text).text = some text := by
  unfold observe
  split
  case isTrue hsame => exact hsame.1
  case isFalse => rfl

@[simp] theorem observe_inFlight (slot : Slot ρ) (text : Text) :
    (slot.observe text).inFlight = slot.inFlight := by
  unfold observe
  split <;> rfl

@[simp] theorem markDirty_inFlight (slot : Slot ρ) : slot.markDirty.inFlight = slot.inFlight := rfl

theorem Keeps.start (hs : slot.Keeps e history) {f : Flight}
    (hf : slot.Knows history f.version f.text) : (slot.start f).Keeps e history where
  text := hs.text
  published := hs.published
  inFlight := by
    intro f' hf'
    obtain rfl := Option.some.inj hf'
    exact hf
  pending := hs.pending

theorem advance_eq (slot : Slot ρ) (f : Flight) : ∃ state, slot.advance f = { slot with state } := by
  unfold advance
  split
  · exact ⟨.checking, rfl⟩
  · exact ⟨slot.state, rfl⟩

theorem Keeps.withState (hs : slot.Keeps e history) (state : FileState) :
    Keeps e history { slot with state } :=
  ⟨hs.text, hs.published, hs.inFlight, hs.pending⟩

theorem Keeps.close {slot' : Slot ρ} (hs : slot.Keeps e history) (h : slot.close? = some slot') :
    slot'.Keeps e history ∧ slot'.inFlight = slot.inFlight ∧
      ∀ v t, slot.Knows history v t → slot'.Knows history v t := by
  obtain ⟨f, hf, rfl⟩ := Option.map_eq_some_iff.mp h
  refine ⟨⟨by simp, by simp, ?_, by simp⟩, hf.symm, fun _ _ => id⟩
  intro f' hf'
  obtain rfl := Option.some.inj hf'
  exact hs.inFlight f hf

theorem settle_closed {f : Flight} (h : f.version ≤ slot.closedAt) (outcome : Outcome ρ) :
    slot.settle f outcome = { slot with inFlight := none, state := .unanalyzed } := by
  simp [settle, h]

theorem settle_error {f : Flight} (h : ¬f.version ≤ slot.closedAt) (failure : Failure) :
    slot.settle f (.error failure) =
      { slot with
        inFlight := none, failure := some (f.version, failure)
        state := if slot.version = f.version then .failed else .unanalyzed } := by
  simp [settle, h]

theorem settle_ok {f : Flight} (h : ¬f.version ≤ slot.closedAt) (result : ρ) :
    slot.settle f (.ok result) =
      { slot with
        inFlight := none
        published := if slot.published.any (f.version < ·.1) then slot.published else some (f.version, result)
        state := if slot.version = f.version then .ready else .unanalyzed } := by
  by_cases hlater : slot.published.any (f.version < ·.1) <;> simp [settle, h, publish, hlater]

theorem settle_eq (slot : Slot ρ) (f : Flight) (outcome : Outcome ρ) :
    ∃ state published failure,
      slot.settle f outcome = { slot with state, published, failure, inFlight := none } := by
  by_cases hclosed : f.version ≤ slot.closedAt
  · exact ⟨_, _, _, settle_closed hclosed outcome⟩
  cases outcome with
  | error failure => exact ⟨_, _, _, settle_error hclosed failure⟩
  | ok result => exact ⟨_, _, _, settle_ok hclosed result⟩

theorem Keeps.settle (hs : slot.Keeps e history) {f : Flight} {outcome : Outcome ρ}
    (hf : slot.Knows history f.version f.text) (houtcome : e.analyze f.text = outcome) :
    (slot.settle f outcome).Keeps e history := by
  by_cases hclosed : f.version ≤ slot.closedAt
  · rw [settle_closed hclosed]
    exact ⟨hs.text, hs.published, by simp, hs.pending⟩
  cases outcome with
  | error failure =>
    rw [settle_error hclosed]
    exact ⟨hs.text, hs.published, by simp, hs.pending⟩
  | ok result =>
    rw [settle_ok hclosed]
    refine ⟨hs.text, fun p hp => ?_, by simp, hs.pending⟩
    dsimp only at hp
    split at hp
    · exact hs.published p hp
    · obtain rfl := Option.some.inj hp
      exact ⟨hf.1, by rw [hf.2]; exact houtcome⟩

theorem Keeps.takePending (hs : slot.Keeps e history) :
    slot.takePending.2.Keeps e history ∧
      ∀ v t, slot.takePending.1 = some (v, t) → slot.Knows history v t := by
  refine ⟨⟨hs.text, hs.published, hs.inFlight, by simp [Slot.takePending]⟩, fun v t h => ?_⟩
  exact hs.pending (v, t) (Option.filter_eq_some_iff.mp h).1

end Slot

end

/-! What goes on -/

variable {ρ : Type} {e : FrontEnd ρ}

def Task.GoesOn (t : Task ρ) : Prop :=
  match t.progress with
  | .settled _ => False
  | _ => True

def Task.Right (e : FrontEnd ρ) (t : Task ρ) : Prop :=
  match t.progress with
  | .parsing => True
  | .checking => e.readFailure? t.flight.text = none
  | .settled outcome => e.analyze t.flight.text = outcome

namespace FileChecks

variable {s s' : FileChecks ρ} {slot : Slot ρ} {t t' : Task ρ} {f : Flight} {p : Progress ρ}
  {outcome : Outcome ρ}

/-- The analysis that the slot holds. -/
def flight? (s : FileChecks ρ) : Option Flight := s.slot.bind (·.inFlight)

structure Exclusive (s : FileChecks ρ) : Prop where
  owned : ∀ t ∈ s.tasks, t.GoesOn → ∃ slot, s.slot = some slot ∧ slot.inFlight = some t.flight
  flying : ∀ slot f, s.slot = some slot → slot.inFlight = some f → ∃ t ∈ s.tasks, t.flight = f ∧ t.GoesOn
  taskIds : (s.tasks.map (·.flight.id)).Nodup
  taskBound : ∀ t ∈ s.tasks, t.flight.id < s.flights

theorem flight?_eq_some_iff : s.flight? = some f ↔ ∃ slot, s.slot = some slot ∧ slot.inFlight = some f :=
  Option.bind_eq_some_iff

theorem flight?_of_slot (hslot : s.slot = some slot) : s.flight? = slot.inFlight := by
  rw [flight?, hslot, Option.bind_some]

theorem flight?_theSlot (s : FileChecks ρ) : s.flight? = s.theSlot.inFlight := by
  unfold flight? theSlot
  cases s.slot <;> rfl

theorem flight?_close (s : FileChecks ρ) : s.close.flight? = s.flight? := by
  unfold flight? close
  cases s.slot with
  | none => rfl
  | some slot =>
    unfold Slot.close?
    cases hf : slot.inFlight <;> simp [hf]

theorem exclusive_empty : Exclusive ({} : FileChecks ρ) where
  owned := by simp
  flying := by simp
  taskIds := by simp
  taskBound := by simp

theorem nodup_append_fresh {ids : List Nat} {n : Nat} (h : ids.Nodup) (hn : ∀ id ∈ ids, id < n) :
    (ids ++ [n]).Nodup := by
  rw [← List.concat_eq_append]
  exact List.Nodup.concat (fun hmem => Nat.lt_irrefl n (hn n hmem)) h

theorem setProgress_ids (s : FileChecks ρ) (f : Flight) (p : Progress ρ) :
    (s.setProgress f p).tasks.map (·.flight.id) = s.tasks.map (·.flight.id) := by
  simp only [setProgress, List.map_map]
  refine List.map_congr_left fun t _ => ?_
  simp only [Function.comp_apply]
  split <;> rfl

theorem filter_owns (hslot : s.slot = some slot) (hf : slot.inFlight = some f) :
    s.slot.filter (·.owns f) = some slot := by
  simp [hslot, Slot.owns, hf]

/-- An analysis goes on: it comes to its check, settles, or is over. -/
theorem work_cases (e : FrontEnd ρ) (s : FileChecks ρ) (t : Task ρ) :
    (t.GoesOn ∧ e.readFailure? t.flight.text = none ∧ s.work e t = s.advance t.flight) ∨
      (∃ outcome, t.GoesOn ∧ (t.Right e → e.analyze t.flight.text = outcome) ∧
        s.work e t = s.settle t.flight outcome) ∨
      ∃ outcome, t.progress = .settled outcome ∧ s.work e t = s.complete t.flight outcome := by
  unfold work Task.GoesOn Task.Right
  cases t.progress with
  | parsing =>
    cases hread : e.readFailure? t.flight.text with
    | none => exact .inl ⟨trivial, rfl, rfl⟩
    | some failure =>
      exact .inr (.inl ⟨.error failure, trivial, fun _ => FrontEnd.analyze_of_readFailure hread, rfl⟩)
  | checking => exact .inr (.inl ⟨_, trivial, fun hread => FrontEnd.analyze_of_read hread, rfl⟩)
  | settled outcome => exact .inr (.inr ⟨outcome, rfl, rfl⟩)

/-- The analysis that the slot holds settles: the one that waits behind it starts, or the slot is
forgotten, or kept. -/
theorem settle_cases (hslot : s.slot = some slot) (hf : slot.inFlight = some f) (outcome : Outcome ρ) :
    let next : Slot ρ := { slot.settle f outcome with pending := none }
    (∃ text, slot.pending = some (slot.version, text) ∧
        s.settle f outcome = (s.setProgress f (.settled outcome)).launch next slot.version text) ∨
      (slot.text = none ∧
        s.settle f outcome = { s.setProgress f (.settled outcome) with slot := none }) ∨
      (slot.text.isSome ∧
        s.settle f outcome = { s.setProgress f (.settled outcome) with slot := some next }) := by
  have hfilter : (s.setProgress f (.settled outcome)).slot.filter (·.owns f) = some slot :=
    filter_owns hslot hf
  obtain ⟨state, published, failure, heq⟩ := slot.settle_eq f outcome
  simp only [settle, hfilter, heq, Slot.takePending]
  cases hpending : slot.pending.filter (·.1 = slot.version) with
  | none =>
    cases htext : slot.text with
    | none => exact .inr (.inl ⟨rfl, rfl⟩)
    | some text => exact .inr (.inr ⟨rfl, rfl⟩)
  | some p =>
    obtain ⟨hsome, hversion⟩ := Option.filter_eq_some_iff.mp hpending
    obtain ⟨version, text⟩ := p
    obtain rfl : version = slot.version := by simpa using hversion
    exact .inl ⟨text, hsome, rfl⟩

namespace Exclusive

variable (hs : Exclusive s)

include hs

theorem task_unique (ht : t ∈ s.tasks) (ht' : t' ∈ s.tasks) (hid : t.flight.id = t'.flight.id) : t = t' :=
  List.inj_on_of_nodup_map hs.taskIds ht ht' hid

theorem goesOn_unique (ht : t ∈ s.tasks) (hgoes : t.GoesOn) (ht' : t' ∈ s.tasks) (hgoes' : t'.GoesOn) :
    t'.flight.id = t.flight.id := by
  obtain ⟨slot, hslot, hf⟩ := hs.owned t ht hgoes
  obtain ⟨slot', hslot', hf'⟩ := hs.owned t' ht' hgoes'
  obtain rfl := Option.some.inj (hslot.symm.trans hslot')
  rw [Option.some.inj (hf.symm.trans hf')]

theorem idle (hnone : s.flight? = none) : ∀ t ∈ s.tasks, ¬t.GoesOn := by
  intro t ht hgoes
  have hflight := flight?_eq_some_iff.mpr (hs.owned t ht hgoes)
  rw [hnone] at hflight
  cases hflight

theorem mem_setProgress (ht : t ∈ s.tasks) (ht' : t' ∈ (s.setProgress t.flight p).tasks) :
    t' = { t with progress := p } ∨ t' ∈ s.tasks ∧ t'.flight.id ≠ t.flight.id := by
  obtain ⟨t₀, ht₀, rfl⟩ := List.mem_map.mp ht'
  split
  case isTrue hid =>
    rw [hs.task_unique ht₀ ht hid]
    exact .inl rfl
  case isFalse hid => exact .inr ⟨ht₀, hid⟩

theorem of_same (htasks : s'.tasks = s.tasks) (hflights : s'.flights = s.flights)
    (hflight : s'.flight? = s.flight?) : Exclusive s' where
  owned := by
    intro t ht hgoes
    rw [← flight?_eq_some_iff, hflight, flight?_eq_some_iff]
    exact hs.owned t (htasks ▸ ht) hgoes
  flying := by
    intro slot f hslot hf
    have hflying := hflight.symm.trans (flight?_eq_some_iff.mpr ⟨slot, hslot, hf⟩)
    obtain ⟨slot', hslot', hf'⟩ := flight?_eq_some_iff.mp hflying
    rw [htasks]
    exact hs.flying slot' f hslot' hf'
  taskIds := by
    rw [htasks]
    exact hs.taskIds
  taskBound := by
    rw [htasks, hflights]
    exact hs.taskBound

theorem launch (hnone : s.flight? = none) (slot : Slot ρ) (version : Nat) (text : Text) :
    Exclusive (s.launch slot version text) where
  owned := by
    intro t ht hgoes
    rcases List.mem_append.mp ht with ht | ht
    · exact absurd hgoes (hs.idle hnone t ht)
    · rw [List.mem_singleton.mp ht]
      exact ⟨_, rfl, rfl⟩
  flying := by
    intro slot' f hslot' hf
    obtain rfl := Option.some.inj hslot'
    obtain rfl := Option.some.inj hf
    exact ⟨_, List.mem_append_right _ (List.mem_singleton_self _), rfl, trivial⟩
  taskIds := by
    simp only [FileChecks.launch, List.map_append]
    refine nodup_append_fresh hs.taskIds fun id hid => ?_
    obtain ⟨t, ht, rfl⟩ := List.mem_map.mp hid
    exact hs.taskBound t ht
  taskBound := by
    intro t ht
    rcases List.mem_append.mp ht with ht | ht
    · exact Nat.lt_succ_of_lt (hs.taskBound t ht)
    · rw [List.mem_singleton.mp ht]
      exact Nat.lt_succ_self _

theorem setProgress_ids_nodup (f : Flight) (p : Progress ρ) :
    ((s.setProgress f p).tasks.map (·.flight.id)).Nodup := by
  rw [setProgress_ids]
  exact hs.taskIds

theorem setProgress_bound (f : Flight) (p : Progress ρ) :
    ∀ t ∈ (s.setProgress f p).tasks, t.flight.id < s.flights := by
  intro t ht
  have hid := List.mem_map_of_mem (f := (·.flight.id)) ht
  rw [setProgress_ids] at hid
  obtain ⟨t', ht', hsame⟩ := List.mem_map.mp hid
  exact hsame ▸ hs.taskBound t' ht'

theorem advance (ht : t ∈ s.tasks) (hgoes : t.GoesOn) : Exclusive (s.advance t.flight) := by
  obtain ⟨slot, hslot, hf⟩ := hs.owned t ht hgoes
  obtain ⟨state, hadvance⟩ := slot.advance_eq t.flight
  have hslot' : (s.advance t.flight).slot = some { slot with state } := by
    simp [FileChecks.advance, hslot, hadvance]
  refine ⟨?owned, ?flying, hs.setProgress_ids_nodup t.flight .checking,
    hs.setProgress_bound t.flight .checking⟩
  case owned =>
    intro t' ht' hgoes'
    rcases hs.mem_setProgress ht ht' with rfl | ⟨ht', hid⟩
    · exact ⟨_, hslot', hf⟩
    · exact absurd (hs.goesOn_unique ht hgoes ht' hgoes') hid
  case flying =>
    intro slot' f h hf'
    obtain rfl := Option.some.inj (h.symm.trans hslot')
    obtain rfl := Option.some.inj (hf.symm.trans hf')
    refine ⟨{ t with progress := .checking }, List.mem_map.mpr ⟨t, ht, ?_⟩, rfl, trivial⟩
    rw [if_pos rfl]

theorem settled (ht : t ∈ s.tasks) (hgoes : t.GoesOn) (outcome : Outcome ρ) (slot? : Option (Slot ρ))
    (hnone : slot?.bind (·.inFlight) = none) :
    Exclusive { s.setProgress t.flight (.settled outcome) with slot := slot? } := by
  refine ⟨?owned, ?flying, hs.setProgress_ids_nodup t.flight (.settled outcome),
    hs.setProgress_bound t.flight (.settled outcome)⟩
  case owned =>
    intro t' ht' hgoes'
    rcases hs.mem_setProgress ht ht' with rfl | ⟨ht', hid⟩
    · exact hgoes'.elim
    · exact absurd (hs.goesOn_unique ht hgoes ht' hgoes') hid
  case flying =>
    intro slot f h hf
    have hflying : slot?.bind (·.inFlight) = some f := Option.bind_eq_some_iff.mpr ⟨slot, h, hf⟩
    rw [hnone] at hflying
    cases hflying

theorem settle (ht : t ∈ s.tasks) (hgoes : t.GoesOn) (outcome : Outcome ρ) :
    Exclusive (s.settle t.flight outcome) := by
  obtain ⟨slot, hslot, hf⟩ := hs.owned t ht hgoes
  obtain ⟨state, published, failure, heq⟩ := slot.settle_eq t.flight outcome
  rcases settle_cases hslot hf outcome with ⟨text, -, hlaunch⟩ | ⟨-, hforgotten⟩ | ⟨-, hkept⟩
  · have hs' := hs.settled ht hgoes outcome
      (some { slot.settle t.flight outcome with pending := none }) (by rw [heq]; rfl)
    rw [hlaunch]
    exact hs'.launch (by rw [heq]; rfl) _ _ _
  · exact hforgotten ▸ hs.settled ht hgoes outcome none rfl
  · exact hkept ▸ hs.settled ht hgoes outcome _ (by rw [heq]; rfl)

theorem complete (ht : t ∈ s.tasks) (hprogress : t.progress = .settled outcome) :
    Exclusive (s.complete t.flight outcome) := by
  have hwas : ∀ t' ∈ (s.complete t.flight outcome).tasks, t' ∈ s.tasks :=
    fun t' ht' => (List.mem_filter.mp ht').1
  refine ⟨fun t' ht' => hs.owned t' (hwas t' ht'), ?flying, ?taskIds,
    fun t' ht' => hs.taskBound t' (hwas t' ht')⟩
  case flying =>
    intro slot f hslot hf
    obtain ⟨t', ht', hflight, hgoes⟩ := hs.flying slot f hslot hf
    refine ⟨t', List.mem_filter.mpr ⟨ht', ?_⟩, hflight, hgoes⟩
    rw [decide_eq_true_eq]
    intro hid
    rw [hs.task_unique ht' ht hid, Task.GoesOn, hprogress] at hgoes
    exact hgoes
  case taskIds => exact hs.taskIds.sublist (List.filter_sublist.map _)

theorem work (ht : t ∈ s.tasks) : Exclusive (s.work e t) := by
  obtain ⟨hgoes, -, hwork⟩ | ⟨outcome, hgoes, -, hwork⟩ | ⟨outcome, hprogress, hwork⟩ := work_cases e s t
  · exact hwork ▸ hs.advance ht hgoes
  · exact hwork ▸ hs.settle ht hgoes outcome
  · exact hwork ▸ hs.complete ht hprogress

theorem request (text : Text) : Exclusive (s.request text) := by
  refine hs.of_same rfl rfl ?_
  rw [flight?_theSlot, flight?_theSlot]
  exact Slot.observe_inFlight s.theSlot text

theorem turn (c : Caller ρ) : Exclusive (s.turn c) := by
  simp only [FileChecks.turn]
  split
  case h_1 => exact hs.of_same rfl rfl rfl
  case h_2 => exact hs.of_same rfl rfl rfl
  case h_3 _ hnone =>
    have hlaunch := hs.launch ((flight?_theSlot s).trans hnone) s.theSlot c.version c.text
    exact hlaunch.of_same rfl rfl rfl

theorem poll (text : Text) : Exclusive (s.poll text).2 := by
  have hflight : s.flight? = (s.theSlot.observe text).inFlight := by
    rw [flight?_theSlot, Slot.observe_inFlight]
  unfold FileChecks.poll
  simp only
  split
  case h_1 => exact hs.of_same rfl rfl hflight.symm
  case h_2 => exact hs.of_same rfl rfl hflight.symm
  case h_3 =>
    refine hs.of_same rfl rfl ?_
    split <;> exact hflight.symm
  case h_4 _ _ hnone => exact hs.launch (hflight.trans hnone) _ _ _

theorem markDirty : Exclusive s.markDirty := by
  refine hs.of_same rfl rfl ?_
  unfold flight? FileChecks.markDirty
  cases s.slot <;> rfl

theorem close : Exclusive s.close := hs.of_same rfl rfl (flight?_close s)

end Exclusive
end FileChecks

end ScriptAnalyzer

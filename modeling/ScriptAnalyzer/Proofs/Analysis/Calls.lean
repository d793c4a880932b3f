import ScriptAnalyzer.Proofs.Analysis.Flights

namespace ScriptAnalyzer

variable {ρ : Type} {e : FrontEnd ρ} {history history' : Nat → Text}

def Caller.Waits (c : Caller ρ) : Prop :=
  match c.waiting with
  | .ready | .behind _ => True
  | _ => False

namespace FileChecks

variable {s s' : FileChecks ρ} {slot slot' : Slot ρ} {version : Nat} {text : Text}

def Waits (s : FileChecks ρ) : Prop := ∃ c ∈ s.callers, c.Waits

def Knows (history : Nat → Text) (s : FileChecks ρ) (version : Nat) (text : Text) : Prop :=
  0 < version ∧ ∃ slot, s.slot = some slot ∧ slot.Knows history version text

/-- What a call waits for, or has got, belongs to its text. -/
def Serves (e : FrontEnd ρ) (history : Nat → Text) (s : FileChecks ρ) (c : Caller ρ) : Prop :=
  match c.waiting with
  | .ready => s.Knows history c.version c.text
  | .joined id => ∃ t ∈ s.tasks, t.flight.id = id ∧ t.flight.text = c.text
  | .behind id => s.Knows history c.version c.text ∧ ∃ t ∈ s.tasks, t.flight.id = id
  | .returned outcome => e.analyze c.text = outcome

structure Coherent (e : FrontEnd ρ) (history : Nat → Text) (s : FileChecks ρ) : Prop where
  slot : ∀ slot, s.slot = some slot → slot.Keeps e history
  callers : ∀ c ∈ s.callers, s.Serves e history c
  tasks : ∀ t ∈ s.tasks, t.Right e
  owned : ∀ t ∈ s.tasks, t.GoesOn → ∃ slot, s.slot = some slot ∧ slot.inFlight = some t.flight
  flying : ∀ slot f, s.slot = some slot → slot.inFlight = some f → ∃ t ∈ s.tasks, t.flight = f ∧ t.GoesOn
  taskIds : (s.tasks.map (·.flight.id)).Nodup
  taskBound : ∀ t ∈ s.tasks, t.flight.id < s.flights
  callerIds : (s.callers.map (·.id)).Nodup
  callerBound : ∀ c ∈ s.callers, c.id < s.calls

theorem coherent_empty (e : FrontEnd ρ) (history : Nat → Text) : Coherent e history {} :=
  { exclusive_empty with
    slot := by simp
    callers := by simp
    tasks := by simp
    callerIds := by simp
    callerBound := by simp }

theorem Serves.mono {c : Caller ρ} (h : s.Serves e history c)
    (hknows : c.Waits → ∀ v t, s.Knows history v t → s'.Knows history' v t)
    (htasks : ∀ t ∈ s.tasks, ∃ t' ∈ s'.tasks, t'.flight = t.flight) : s'.Serves e history' c := by
  unfold Serves at h ⊢
  unfold Caller.Waits at hknows
  cases hwaiting : c.waiting with
  | ready =>
    rw [hwaiting] at h hknows
    exact hknows trivial _ _ h
  | joined id =>
    rw [hwaiting] at h
    obtain ⟨t, ht, hid, htext⟩ := h
    obtain ⟨t', ht', hflight⟩ := htasks t ht
    exact ⟨t', ht', by rw [hflight, hid], by rw [hflight, htext]⟩
  | behind id =>
    rw [hwaiting] at h hknows
    obtain ⟨hknown, t, ht, hid⟩ := h
    obtain ⟨t', ht', hflight⟩ := htasks t ht
    exact ⟨hknows trivial _ _ hknown, t', ht', by rw [hflight, hid]⟩
  | returned outcome =>
    rw [hwaiting] at h
    exact h

theorem knows_theSlot (h : s.Knows history version text) :
    s.slot = some s.theSlot ∧ s.theSlot.Knows history version text := by
  obtain ⟨-, slot, hslot, hknown⟩ := h
  rw [FileChecks.theSlot, hslot]
  exact ⟨rfl, hknown⟩

theorem markDirty_of_unknown (hslot : s.slot = none) : s.markDirty = s := by
  cases s
  simp only at hslot
  rw [FileChecks.markDirty, hslot]
  rfl

theorem close_of_unknown (hslot : s.slot = none) : s.close = s := by
  cases s
  simp only at hslot
  rw [FileChecks.close, hslot]
  rfl

namespace Coherent

variable (hs : Coherent e history s)

include hs

theorem theSlot : s.theSlot.Keeps e history := by
  unfold FileChecks.theSlot
  cases hslot : s.slot with
  | none => exact Slot.keeps_empty e history
  | some slot => exact hs.slot slot hslot

theorem exclusive : Exclusive s := ⟨hs.owned, hs.flying, hs.taskIds, hs.taskBound⟩

theorem knows_of_waits {c : Caller ρ} (hc : c ∈ s.callers) (hwaits : c.Waits) :
    s.Knows history c.version c.text := by
  have hserves := hs.callers c hc
  unfold Serves at hserves
  unfold Caller.Waits at hwaits
  cases hwaiting : c.waiting with
  | ready =>
    rw [hwaiting] at hserves
    exact hserves
  | behind id =>
    rw [hwaiting] at hserves
    exact hserves.1
  | joined id => simp [hwaiting] at hwaits
  | returned outcome => simp [hwaiting] at hwaits

theorem caller_unique {c c' : Caller ρ} (hc : c ∈ s.callers) (hc' : c' ∈ s.callers)
    (hid : c.id = c'.id) : c = c' :=
  List.inj_on_of_nodup_map hs.callerIds hc hc' hid

theorem withSlot (hkeeps : slot'.Keeps e history')
    (hknows : ∀ v t, s.theSlot.Knows history v t → slot'.Knows history' v t)
    (hinFlight : slot'.inFlight = s.theSlot.inFlight) :
    Coherent e history' { s with slot := some slot' } := by
  have hexclusive : Exclusive { s with slot := some slot' } :=
    hs.exclusive.of_same rfl rfl (hinFlight.trans (flight?_theSlot s).symm)
  refine { hexclusive with
    slot := ?slot, callers := ?callers, tasks := hs.tasks
    callerIds := hs.callerIds, callerBound := hs.callerBound }
  case slot =>
    intro slot hslot
    obtain rfl := Option.some.inj hslot
    exact hkeeps
  case callers =>
    intro c hc
    refine (hs.callers c hc).mono (fun _ v t hknown => ?_) fun t ht => ⟨t, ht, rfl⟩
    obtain ⟨hpos, slot, hslot, hknown⟩ := hknown
    refine ⟨hpos, slot', rfl, hknows v t ?_⟩
    rwa [FileChecks.theSlot, hslot]

theorem forget (hidle : s.flight? = none) (hwaits : ¬s.Waits) :
    Coherent e history { s with slot := none } := by
  have hexclusive : Exclusive { s with slot := none } := hs.exclusive.of_same rfl rfl hidle.symm
  refine { hexclusive with
    slot := by simp, callers := ?callers, tasks := hs.tasks
    callerIds := hs.callerIds, callerBound := hs.callerBound }
  case callers =>
    intro c hc
    exact (hs.callers c hc).mono (fun hw => absurd ⟨c, hc, hw⟩ hwaits) fun t ht => ⟨t, ht, rfl⟩

theorem launch (hslot : s.slot = some slot) (hnone : slot.inFlight = none)
    (hknown : slot.Knows history version text) : Coherent e history (s.launch slot version text) := by
  have hexclusive := hs.exclusive.launch ((flight?_of_slot hslot).trans hnone) slot version text
  refine { hexclusive with
    slot := ?slot, callers := ?callers, tasks := ?tasks
    callerIds := hs.callerIds, callerBound := hs.callerBound }
  case slot =>
    intro slot' hslot'
    obtain rfl := Option.some.inj hslot'
    exact (hs.slot slot hslot).start hknown
  case callers =>
    intro c hc
    refine (hs.callers c hc).mono (fun _ v t hknown => ?_) fun t ht =>
      ⟨t, List.mem_append_left _ ht, rfl⟩
    obtain ⟨hpos, slot', hslot', hknown⟩ := hknown
    obtain rfl := Option.some.inj (hslot.symm.trans hslot')
    exact ⟨hpos, _, rfl, hknown⟩
  case tasks =>
    intro t ht
    rcases List.mem_append.mp ht with ht | ht
    · exact hs.tasks t ht
    · rw [List.mem_singleton.mp ht]
      trivial

theorem setWaiting {c : Caller ρ} {w : Waiting ρ} (hc : c ∈ s.callers)
    (hw : s.Serves e history { c with waiting := w }) : Coherent e history (s.setWaiting c.id w) := by
  refine { hs.exclusive.of_same rfl rfl rfl with
    slot := hs.slot, callers := ?callers, tasks := hs.tasks
    callerIds := ?callerIds, callerBound := ?callerBound }
  case callers =>
    intro c' hc'
    obtain ⟨c₀, hc₀, rfl⟩ := List.mem_map.mp hc'
    split
    case isTrue hid =>
      rw [hs.caller_unique hc₀ hc hid]
      exact hw
    case isFalse => exact hs.callers c₀ hc₀
  case callerIds =>
    have hids : (s.setWaiting c.id w).callers.map (·.id) = s.callers.map (·.id) := by
      simp only [FileChecks.setWaiting, List.map_map]
      refine List.map_congr_left fun c' _ => ?_
      simp only [Function.comp_apply]
      split <;> rfl
    rw [hids]
    exact hs.callerIds
  case callerBound =>
    intro c' hc'
    obtain ⟨c₀, hc₀, rfl⟩ := List.mem_map.mp hc'
    split <;> exact hs.callerBound c₀ hc₀

theorem request (text : Text) : ∃ history', Coherent e history' (s.request text) := by
  obtain ⟨history', hkeeps, hknown, hknows⟩ := hs.theSlot.observe text
  have hs' := hs.withSlot hkeeps hknows (Slot.observe_inFlight _ _)
  refine ⟨history', { hs' with callers := ?_, callerIds := ?_, callerBound := ?_ }⟩
  · intro c hc
    rcases List.mem_append.mp hc with hc | hc
    · exact hs'.callers c hc
    · rw [List.mem_singleton.mp hc]
      exact ⟨Slot.observe_version_pos _ _, _, rfl, hknown⟩
  · simp only [FileChecks.request, List.map_append]
    refine nodup_append_fresh hs.callerIds fun id hid => ?_
    obtain ⟨c, hc, rfl⟩ := List.mem_map.mp hid
    exact hs.callerBound c hc
  · intro c hc
    rcases List.mem_append.mp hc with hc | hc
    · exact Nat.lt_succ_of_lt (hs.callerBound c hc)
    · rw [List.mem_singleton.mp hc]
      exact Nat.lt_succ_self _

theorem turn {c : Caller ρ} (hc : c ∈ s.callers) (hready : c.waiting = .ready) :
    Coherent e history (s.turn c) := by
  have hserves := hs.callers c hc
  simp only [Serves, hready] at hserves
  obtain ⟨hslot, hknown⟩ := knows_theSlot hserves
  simp only [FileChecks.turn]
  split
  case h_1 result hpublished =>
    exact hs.setWaiting hc (hs.theSlot.publishedFor hknown hpublished)
  case h_2 f _ hf =>
    obtain ⟨t, ht, hflight, -⟩ := hs.flying _ f hslot hf
    refine hs.setWaiting hc ?_
    split
    case isTrue hsame =>
      refine ⟨t, ht, by rw [hflight], ?_⟩
      rw [hflight]
      exact (hs.theSlot.inFlight f hf).eq (hsame ▸ hknown)
    case isFalse => exact ⟨hserves, t, ht, by rw [hflight]⟩
  case h_3 _ hnone =>
    refine (hs.launch hslot hnone hknown).setWaiting hc ?_
    exact ⟨_, List.mem_append_right _ (List.mem_singleton_self _), rfl, rfl⟩

theorem poll (text : Text) : (∃ history', Coherent e history' (s.poll text).2) ∧
    ∀ result, (s.poll text).1 = .ready result → e.analyze text = .ok result := by
  obtain ⟨history', hkeeps, hknown, hknows⟩ := hs.theSlot.observe text
  have hinFlight := Slot.observe_inFlight s.theSlot text
  have hs' := hs.withSlot hkeeps hknows hinFlight
  unfold FileChecks.poll
  simp only
  split
  case h_1 result hpublished =>
    refine ⟨⟨history', hs'⟩, fun result' hresult => ?_⟩
    obtain rfl := Readiness.ready.inj hresult
    exact hkeeps.publishedFor hknown hpublished
  case h_2 =>
    refine ⟨⟨history', ?_⟩, by simp⟩
    exact hs.withSlot (hkeeps.withState _) hknows hinFlight
  case h_3 f _ _ _ =>
    refine ⟨⟨history', ?_⟩, by simp⟩
    split
    · exact hs'
    · refine hs.withSlot ⟨hkeeps.text, hkeeps.published, hkeeps.inFlight, ?_⟩ hknows hinFlight
      intro p hp
      obtain rfl := Option.some.inj hp
      exact hknown
  case h_4 _ _ hnone => exact ⟨⟨history', hs'.launch rfl hnone hknown⟩, by simp⟩

theorem markDirty : ∃ history', Coherent e history' s.markDirty := by
  cases hslot : s.slot with
  | none =>
    rw [markDirty_of_unknown hslot]
    exact ⟨history, hs⟩
  | some slot =>
    obtain ⟨history', hkeeps, hknows⟩ := (hs.slot slot hslot).markDirty
    have htheSlot : s.theSlot = slot := by rw [FileChecks.theSlot, hslot]; rfl
    rw [show s.markDirty = { s with slot := some slot.markDirty } by
      simp [FileChecks.markDirty, hslot]]
    refine ⟨history', hs.withSlot hkeeps ?_ ?_⟩
    · rwa [htheSlot]
    · rw [htheSlot, Slot.markDirty_inFlight]

theorem close (hwaits : s.close.slot = none → s.slot.isSome → ¬s.Waits) :
    Coherent e history s.close := by
  cases hslot : s.slot with
  | none =>
    rw [close_of_unknown hslot]
    exact hs
  | some slot =>
    have htheSlot : s.theSlot = slot := by rw [FileChecks.theSlot, hslot]; rfl
    cases hclose : slot.close? with
    | none =>
      have hnone : slot.inFlight = none := Option.map_eq_none_iff.mp hclose
      have hforgets : s.close = { s with slot := none } := by simp [FileChecks.close, hslot, hclose]
      rw [hforgets] at hwaits ⊢
      exact hs.forget ((flight?_of_slot hslot).trans hnone) (hwaits rfl (by simp [hslot]))
    | some slot' =>
      obtain ⟨hkeeps, hinFlight, hknows⟩ := (hs.slot slot hslot).close hclose
      rw [show s.close = { s with slot := some slot' } by simp [FileChecks.close, hslot, hclose]]
      refine hs.withSlot hkeeps ?_ ?_
      · rwa [htheSlot]
      · rw [htheSlot, hinFlight]

end Coherent
end FileChecks
end ScriptAnalyzer

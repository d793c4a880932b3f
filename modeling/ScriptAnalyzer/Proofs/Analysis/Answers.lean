import Mathlib.Logic.Function.Iterate
import Mathlib.Logic.Relation
import ScriptAnalyzer.Proofs.Analysis.Calls

namespace ScriptAnalyzer
namespace FileChecks

variable {ρ : Type} {e : FrontEnd ρ} {history : Nat → Text} {s : FileChecks ρ} {slot : Slot ρ}
  {t t' : Task ρ} {p : Progress ρ} {outcome : Outcome ρ}

theorem setProgress_flights (s : FileChecks ρ) (f : Flight) (p : Progress ρ) {t : Task ρ}
    (ht : t ∈ s.tasks) : ∃ t' ∈ (s.setProgress f p).tasks, t'.flight = t.flight := by
  refine ⟨_, List.mem_map_of_mem ht, ?_⟩
  split <;> rfl

theorem complete_ids (s : FileChecks ρ) (f : Flight) (outcome : Outcome ρ) :
    (s.complete f outcome).callers.map (·.id) = s.callers.map (·.id) := by
  simp only [complete, List.map_map]
  refine List.map_congr_left fun c _ => ?_
  simp only [Function.comp_apply]
  split
  · split <;> rfl
  · split <;> rfl
  · rfl

namespace Coherent

variable (hs : Coherent e history s)

include hs

theorem advance (ht : t ∈ s.tasks) (hgoes : t.GoesOn) (hread : e.readFailure? t.flight.text = none) :
    Coherent e history (s.advance t.flight) := by
  obtain ⟨slot, hslot, hf⟩ := hs.owned t ht hgoes
  obtain ⟨state, hadvance⟩ := slot.advance_eq t.flight
  have hslot' : (s.advance t.flight).slot = some { slot with state } := by
    simp [FileChecks.advance, hslot, hadvance]
  refine { hs.exclusive.advance ht hgoes with
    slot := ?slot, callers := ?callers, tasks := ?tasks
    callerIds := hs.callerIds, callerBound := hs.callerBound }
  case slot =>
    intro slot' h
    obtain rfl := Option.some.inj (h.symm.trans hslot')
    exact (hs.slot slot hslot).withState state
  case callers =>
    intro c hc
    refine (hs.callers c hc).mono (fun _ v text hknown => ?_) fun t₀ =>
      setProgress_flights s t.flight .checking
    obtain ⟨hpos, slot', h, hknown⟩ := hknown
    obtain rfl := Option.some.inj (hslot.symm.trans h)
    exact ⟨hpos, _, hslot', hknown⟩
  case tasks =>
    intro t' ht'
    rcases hs.exclusive.mem_setProgress ht ht' with rfl | ⟨ht', -⟩
    · exact hread
    · exact hs.tasks t' ht'

theorem settled {slot' : Slot ρ} (ht : t ∈ s.tasks) (hgoes : t.GoesOn)
    (houtcome : e.analyze t.flight.text = outcome) (hkeeps : slot'.Keeps e history)
    (hknows : ∀ v text, s.theSlot.Knows history v text → slot'.Knows history v text)
    (hnone : slot'.inFlight = none) :
    Coherent e history { s.setProgress t.flight (.settled outcome) with slot := some slot' } := by
  refine { hs.exclusive.settled ht hgoes outcome (some slot') hnone with
    slot := ?slot, callers := ?callers, tasks := ?tasks
    callerIds := hs.callerIds, callerBound := hs.callerBound }
  case slot =>
    intro slot h
    obtain rfl := Option.some.inj h
    exact hkeeps
  case callers =>
    intro c hc
    refine (hs.callers c hc).mono (fun _ v text hknown => ?_) fun t₀ =>
      setProgress_flights s t.flight (.settled outcome)
    exact ⟨hknown.1, slot', rfl, hknows v text (knows_theSlot hknown).2⟩
  case tasks =>
    intro t' ht'
    rcases hs.exclusive.mem_setProgress ht ht' with rfl | ⟨ht', -⟩
    · exact houtcome
    · exact hs.tasks t' ht'

theorem settle (ht : t ∈ s.tasks) (hgoes : t.GoesOn) (houtcome : e.analyze t.flight.text = outcome)
    (hwaits : (s.settle t.flight outcome).slot = none → ¬s.Waits) :
    Coherent e history (s.settle t.flight outcome) := by
  obtain ⟨slot, hslot, hf⟩ := hs.owned t ht hgoes
  have hkeeps := hs.slot slot hslot
  have htheSlot : s.theSlot = slot := by rw [FileChecks.theSlot, hslot]; rfl
  obtain ⟨state, published, failure, heq⟩ := slot.settle_eq t.flight outcome
  have hnext := ((hkeeps.settle (hkeeps.inFlight _ hf) houtcome).takePending).1
  have hidle : (slot.settle t.flight outcome).takePending.2.inFlight = none := by rw [heq]; rfl
  have hs' := hs.settled ht hgoes houtcome hnext (by rw [htheSlot, heq]; exact fun _ _ => id) hidle
  rcases settle_cases hslot hf outcome with ⟨text, hpending, hlaunch⟩ | ⟨-, hforgotten⟩ | ⟨-, hkept⟩
  · rw [hlaunch]
    refine hs'.launch rfl hidle ?_
    rw [heq]
    exact hkeeps.pending _ hpending
  · rw [hforgotten] at hwaits ⊢
    exact hs'.forget hidle (hwaits rfl)
  · exact hkept ▸ hs'

theorem complete (ht : t ∈ s.tasks) (hprogress : t.progress = .settled outcome) :
    Coherent e history (s.complete t.flight outcome) := by
  have houtcome : e.analyze t.flight.text = outcome := by
    have hright := hs.tasks t ht
    rwa [Task.Right, hprogress] at hright
  have hstays : ∀ t' ∈ s.tasks, t'.flight.id ≠ t.flight.id → t' ∈ (s.complete t.flight outcome).tasks :=
    fun t' ht' hid => List.mem_filter.mpr ⟨ht', by simpa using hid⟩
  refine { hs.exclusive.complete ht hprogress with
    slot := hs.slot, callers := ?callers, tasks := fun t' ht' => hs.tasks t' (List.mem_filter.mp ht').1
    callerIds := ?callerIds, callerBound := ?callerBound }
  case callers =>
    intro c' hc'
    obtain ⟨c, hc, rfl⟩ := List.mem_map.mp hc'
    -- who joined the flight returns its outcome and who waited behind it is ready; the others keep their task
    have hserves := hs.callers c hc
    unfold Serves at hserves
    split
    case h_1 id hjoined =>
      rw [hjoined] at hserves
      obtain ⟨t', ht', hid, htext⟩ := hserves
      split
      case isTrue hsame =>
        rw [hs.exclusive.task_unique ht' ht (hid.trans hsame)] at htext
        simp only [Serves, ← htext]
        exact houtcome
      case isFalse hother =>
        rw [Serves, hjoined]
        exact ⟨t', hstays t' ht' (hid.symm ▸ hother), hid, htext⟩
    case h_2 id hbehind =>
      rw [hbehind] at hserves
      obtain ⟨hknown, t', ht', hid⟩ := hserves
      split
      case isTrue => exact hknown
      case isFalse hother =>
        rw [Serves, hbehind]
        exact ⟨hknown, t', hstays t' ht' (hid.symm ▸ hother), hid⟩
    case h_3 hjoined hbehind =>
      unfold Serves
      cases hwaiting : c.waiting with
      | ready =>
        rw [hwaiting] at hserves
        exact hserves
      | joined id => exact absurd hwaiting (hjoined id)
      | behind id => exact absurd hwaiting (hbehind id)
      | returned outcome =>
        rw [hwaiting] at hserves
        exact hserves
  case callerIds =>
    rw [complete_ids]
    exact hs.callerIds
  case callerBound =>
    intro c hc
    have hid := List.mem_map_of_mem (f := (·.id)) hc
    rw [complete_ids] at hid
    obtain ⟨c', hc', hsame⟩ := List.mem_map.mp hid
    exact hsame ▸ hs.callerBound c' hc'

theorem work (ht : t ∈ s.tasks) (hwaits : s.slot.isSome → (s.work e t).slot = none → ¬s.Waits) :
    Coherent e history (s.work e t) := by
  obtain ⟨hgoes, hread, hwork⟩ | ⟨outcome, hgoes, hright, hwork⟩ | ⟨outcome, hprogress, hwork⟩ :=
    work_cases e s t
  · exact hwork ▸ hs.advance ht hgoes hread
  · rw [hwork] at hwaits ⊢
    obtain ⟨slot, hslot, -⟩ := hs.owned t ht hgoes
    exact hs.settle ht hgoes (hright (hs.tasks t ht)) (hwaits (by simp [hslot]))
  · exact hwork ▸ hs.complete ht hprogress

end Coherent
end FileChecks

variable {ρ : Type} {e : FrontEnd ρ}

namespace FrontEnd

structure Distinguishes (e : FrontEnd ρ) : Prop where
  succeeds : ∀ text, ∃ result, e.analyze text = .ok result
  apart : ∀ text text' result, e.analyze text = .ok result → e.analyze text' = .ok result → text = text'

def echo : FrontEnd Text := { readFailure? := fun _ => none, check := .ok }

theorem echo_distinguishes : echo.Distinguishes where
  succeeds := fun text => ⟨text, rfl⟩
  apart := fun _ _ _ h h' => (Except.ok.inj h).trans (Except.ok.inj h').symm

theorem analyze_ok {text : Text} {result : ρ} (h : e.analyze text = .ok result) :
    e.readFailure? text = none ∧ e.check text = .ok result := by
  cases hread : e.readFailure? text with
  | none => exact ⟨rfl, (analyze_of_read hread).symm.trans h⟩
  | some failure =>
    rw [analyze_of_readFailure hread] at h
    cases h

end FrontEnd

namespace FileChecks

variable {s s' : FileChecks ρ}

inductive Step (e : FrontEnd ρ) : FileChecks ρ → FileChecks ρ → Prop
  | request (s : FileChecks ρ) (text : Text) : Step e s (s.request text)
  | turn (s : FileChecks ρ) (c : Caller ρ) (hc : c ∈ s.callers) (hready : c.waiting = .ready) :
    Step e s (s.turn c)
  | poll (s : FileChecks ρ) (text : Text) : Step e s (s.poll text).2
  | markDirty (s : FileChecks ρ) : Step e s s.markDirty
  | close (s : FileChecks ρ) : Step e s s.close
  | work (s : FileChecks ρ) (t : Task ρ) (ht : t ∈ s.tasks) : Step e s (s.work e t)

structure Right (e : FrontEnd ρ) (s : FileChecks ρ) : Prop where
  returned : ∀ c ∈ s.callers, ∀ result, c.waiting = .returned (.ok result) →
    e.analyze c.text = .ok result
  polled : ∀ text result, (s.poll text).1 = .ready result → e.analyze text = .ok result

def Forgets (s s' : FileChecks ρ) : Prop := s.slot.isSome ∧ s'.slot = none

/-- The states of the runs in which the slot is never forgotten while a call waits. -/
inductive Orderly (e : FrontEnd ρ) : FileChecks ρ → Prop
  | start : Orderly e {}
  | step {s s' : FileChecks ρ} (hs : Orderly e s) (hstep : Step e s s')
    (hwaits : Forgets s s' → ¬s.Waits) : Orderly e s'

theorem Coherent.right {history : Nat → Text} (hs : Coherent e history s) : Right e s where
  returned := by
    intro c hc result hreturned
    have hserves := hs.callers c hc
    rwa [Serves, hreturned] at hserves
  polled := fun text => (hs.poll text).2

theorem Coherent.step {history : Nat → Text} (hs : Coherent e history s) (hstep : Step e s s')
    (hwaits : Forgets s s' → ¬s.Waits) : ∃ history', Coherent e history' s' := by
  cases hstep with
  | request text => exact hs.request text
  | turn c hc hready => exact ⟨history, hs.turn hc hready⟩
  | poll text => exact (hs.poll text).1
  | markDirty => exact hs.markDirty
  | close => exact ⟨history, hs.close fun hnone hsome => hwaits ⟨hsome, hnone⟩⟩
  | work t ht => exact ⟨history, hs.work ht fun hsome hnone => hwaits ⟨hsome, hnone⟩⟩

theorem Orderly.coherent (hs : Orderly e s) : ∃ history, Coherent e history s := by
  induction hs with
  | start => exact ⟨fun _ => [], coherent_empty e _⟩
  | step _ hstep hwaits ih =>
    obtain ⟨history, hs⟩ := ih
    exact hs.step hstep hwaits

variable {version : Nat} {text : Text} {result : ρ}

theorem markDirty_iterate {slot : Slot ρ} (hstate : slot.markDirty.state = slot.state)
    (hslot : s.slot = some slot) (n : Nat) :
    markDirty^[n] s = { s with slot := some { slot with version := slot.version + n } } := by
  induction n with
  | zero =>
    cases s
    simp only at hslot
    rw [hslot]
    rfl
  | succ n ih =>
    rw [Function.iterate_succ_apply', ih]
    simp only [Slot.markDirty] at hstate
    simp [markDirty, Slot.markDirty, hstate, Nat.add_assoc]

theorem turn_keeps {c : Caller ρ} (h : (s.turn c).slot = none) : s.slot = none := by
  simp only [turn] at h
  split at h
  · exact h
  · exact h
  · cases h

theorem poll_keeps (h : (s.poll text).2.slot = none) : False := by
  simp only [poll] at h
  split at h <;> cases h

theorem markDirty_keeps (h : s.markDirty.slot = none) : s.slot = none := Option.map_eq_none_iff.mp h

theorem advance_keeps {f : Flight} (h : (s.advance f).slot = none) : s.slot = none :=
  Option.map_eq_none_iff.mp h

theorem settle_forgets {f : Flight} {outcome : Outcome ρ} {slot : Slot ρ} (hslot : s.slot = some slot)
    (hf : slot.inFlight = some f) (h : (s.settle f outcome).slot = none) :
    slot.text = none ∧ s.settle f outcome = { s.setProgress f (.settled outcome) with slot := none } := by
  rcases settle_cases hslot hf outcome with ⟨text, -, hlaunch⟩ | hforgotten | ⟨-, hkept⟩
  · rw [hlaunch] at h
    cases h
  · exact hforgotten
  · rw [hkept] at h
    cases h

theorem Coherent.forgets {history : Nat → Text} (hs : Coherent e history s) (hstep : Step e s s')
    (hforgets : Forgets s s') : s'.callers = s.callers ∧
      (∀ t ∈ s.tasks, ∃ t' ∈ s'.tasks, t'.flight.id = t.flight.id) ∧ ∀ t ∈ s'.tasks, ¬t.GoesOn := by
  obtain ⟨hsome, hnone⟩ := hforgets
  have hsettle : ∀ t ∈ s.tasks, t.GoesOn → ∀ outcome, (s.settle t.flight outcome).slot = none →
      (s.settle t.flight outcome).callers = s.callers ∧
        (∀ t₀ ∈ s.tasks, ∃ t' ∈ (s.settle t.flight outcome).tasks, t'.flight.id = t₀.flight.id) ∧
          ∀ t' ∈ (s.settle t.flight outcome).tasks, ¬t'.GoesOn := by
    intro t ht hgoes outcome hnone
    obtain ⟨slot, hslot, hf⟩ := hs.owned t ht hgoes
    rw [(settle_forgets hslot hf hnone).2]
    refine ⟨rfl, fun t₀ ht₀ => ?_, fun t' ht' hgoes' => ?_⟩
    · obtain ⟨t', ht', hflight⟩ := setProgress_flights s t.flight (.settled outcome) ht₀
      exact ⟨t', ht', by rw [hflight]⟩
    · rcases hs.exclusive.mem_setProgress ht ht' with rfl | ⟨ht', hid⟩
      · exact hgoes'
      · exact hid (hs.exclusive.goesOn_unique ht hgoes ht' hgoes')
  cases hstep with
  | request text => cases hnone
  | turn c hc hready => simp [turn_keeps hnone] at hsome
  | poll text => exact (poll_keeps hnone).elim
  | markDirty => simp [markDirty_keeps hnone] at hsome
  | close =>
    refine ⟨rfl, fun t ht => ⟨t, ht, rfl⟩, hs.exclusive.idle ?_⟩
    rw [← flight?_close, flight?, hnone]
    rfl
  | work t ht =>
    obtain ⟨-, -, hwork⟩ | ⟨outcome, hgoes, -, hwork⟩ | ⟨outcome, -, hwork⟩ := work_cases e s t
    · rw [hwork] at hnone
      simp [advance_keeps hnone] at hsome
    · rw [hwork] at hnone ⊢
      exact hsettle t ht hgoes outcome hnone
    · rw [hwork] at hnone
      have hslot : s.slot = none := hnone
      simp [hslot] at hsome

def Works (e : FrontEnd ρ) (s s' : FileChecks ρ) : Prop := ∃ t ∈ s.tasks, s.work e t = s'

theorem Works.step (h : Works e s s') : Step e s s' := by
  obtain ⟨t, ht, rfl⟩ := h
  exact .work s t ht

theorem waiting_gets_ready {c : Caller ρ} (hc : c ∈ s.callers) (hwaits : c.Waits)
    (hbehind : ∀ id, c.waiting = .behind id → ∃ t ∈ s.tasks, t.flight.id = id)
    (hidle : ∀ t ∈ s.tasks, ¬t.GoesOn) :
    ∃ s', Relation.ReflTransGen (Works e) s s' ∧ s'.slot = s.slot ∧
      { c with waiting := .ready } ∈ s'.callers := by
  cases hwaiting : c.waiting with
  | ready => exact ⟨s, .refl, rfl, by rw [← hwaiting]; exact hc⟩
  | behind id =>
    obtain ⟨t, ht, hid⟩ := hbehind id hwaiting
    have hsettled : ∃ outcome, t.progress = .settled outcome := by
      have hnot := hidle t ht
      unfold Task.GoesOn at hnot
      cases hprogress : t.progress with
      | settled outcome => exact ⟨outcome, rfl⟩
      | parsing => simp [hprogress] at hnot
      | checking => simp [hprogress] at hnot
    obtain ⟨outcome, hprogress⟩ := hsettled
    have hwork : s.work e t = s.complete t.flight outcome := by simp only [work, hprogress]
    refine ⟨s.complete t.flight outcome, .single ⟨t, ht, hwork⟩, rfl, ?_⟩
    refine List.mem_map.mpr ⟨c, hc, ?_⟩
    simp only [hwaiting, if_pos hid.symm]
  | joined id => simp [Caller.Waits, hwaiting] at hwaits
  | returned outcome => simp [Caller.Waits, hwaiting] at hwaits

theorem Coherent.forgotten_call {history : Nat → Text} (hs : Coherent e history s)
    (hstep : Step e s s') (hforgets : Forgets s s') (hwaits : s.Waits) :
    ∃ s'' c, Relation.ReflTransGen (Works e) s' s'' ∧ s''.slot = none ∧ c ∈ s''.callers ∧
      c.waiting = .ready ∧ 0 < c.version := by
  obtain ⟨c, hc, hcwaits⟩ := hwaits
  obtain ⟨hcallers, htasks, hidle⟩ := hs.forgets hstep hforgets
  have hserves := hs.callers c hc
  have hbehind : ∀ id, c.waiting = .behind id → ∃ t ∈ s'.tasks, t.flight.id = id := by
    intro id hid
    rw [Serves, hid] at hserves
    obtain ⟨-, t, ht, hsame⟩ := hserves
    obtain ⟨t', ht', hflight⟩ := htasks t ht
    exact ⟨t', ht', hflight.trans hsame⟩
  -- with no analysis going on, the call takes its turn behind one of another text
  obtain ⟨s₁, hrun, hslot, hready⟩ := waiting_gets_ready (hcallers ▸ hc) hcwaits hbehind hidle
  exact ⟨s₁, _, hrun, hslot.trans hforgets.2, hready, rfl, (hs.knows_of_waits hc hcwaits).1⟩

end FileChecks

end ScriptAnalyzer

import ScriptAnalyzer.Proofs.Analysis.Answers

/-!
What a closed file leaves behind. If the slot of the file is not forgotten while a call waits, then every
result that is shown belongs to a call made since the file was closed.
-/

namespace ScriptAnalyzer

variable {ρ : Type} {e : FrontEnd ρ} {history : Nat → Text} {calls : List (Nat × Text)}

namespace Slot

variable {slot : Slot ρ} {version : Nat} {text : Text} {f : Flight} {outcome : Outcome ρ}

/-- The version was given to a call since the file was closed, or it is older than that. -/
def Admits (calls : List (Nat × Text)) (slot : Slot ρ) (version : Nat) (text : Text) : Prop :=
  version ≤ slot.closedAt ∨ (version, text) ∈ calls

structure Since (e : FrontEnd ρ) (calls : List (Nat × Text)) (slot : Slot ρ) : Prop where
  closed : slot.closedAt ≤ slot.version
  opened : slot.text.isSome → slot.closedAt < slot.version
  text : slot.text = calls.head?.map (·.2)
  newest : ∀ call ∈ calls, call.1 < slot.version ∨ call.1 = slot.version ∧ calls.head? = some call
  published : ∀ p, slot.published = some p → ∃ text, (p.1, text) ∈ calls ∧ e.analyze text = .ok p.2
  inFlight : ∀ f, slot.inFlight = some f → slot.Admits calls f.version f.text
  pending : ∀ p, slot.pending = some p → p ∈ calls ∧ ∃ f, slot.inFlight = some f ∧ f.version ≠ p.1

theorem since_empty (e : FrontEnd ρ) : Since e [] ({} : Slot ρ) where
  closed := by simp
  opened := by simp
  text := rfl
  newest := by simp
  published := by simp
  inFlight := by simp
  pending := by simp

namespace Since

variable (hs : slot.Since e calls)

include hs

theorem call_le {call : Nat × Text} (hcall : call ∈ calls) : call.1 ≤ slot.version :=
  (hs.newest call hcall).elim Nat.le_of_lt fun h => Nat.le_of_eq h.1

theorem observe (text : Text) :
    (slot.observe text).Since e (((slot.observe text).version, text) :: calls) := by
  unfold Slot.observe
  split
  case isTrue hsame =>
    refine ⟨hs.closed, hs.opened, hsame.1, fun call hcall => ?_, fun p hp => ?_, fun f hf => ?_,
      fun p hp => ?_⟩
    · rcases List.mem_cons.mp hcall with rfl | hcall
      · exact .inr ⟨rfl, rfl⟩
      · refine (hs.newest call hcall).imp_right fun ⟨hversion, hhead⟩ => ⟨hversion, ?_⟩
        -- the last call with this version asked for the same text
        have htext := hs.text
        rw [hsame.1, hhead] at htext
        rw [List.head?_cons, ← hversion, Option.some.inj htext]
    · obtain ⟨t, ht, hresult⟩ := hs.published p hp
      exact ⟨t, List.mem_cons_of_mem _ ht, hresult⟩
    · exact (hs.inFlight f hf).imp_right (List.mem_cons_of_mem _)
    · exact (hs.pending p hp).imp_left (List.mem_cons_of_mem _)
  case isFalse =>
    have hclosed := hs.closed
    refine ⟨Nat.le_succ_of_le hclosed, fun _ => Nat.lt_succ_of_le hclosed, rfl, fun call hcall => ?_,
      fun p hp => ?_, fun f hf => ?_, fun p hp => ?_⟩
    · rcases List.mem_cons.mp hcall with rfl | hcall
      · exact .inr ⟨rfl, rfl⟩
      · exact .inl (Nat.lt_succ_of_le (hs.call_le hcall))
    · obtain ⟨t, ht, hresult⟩ := hs.published p hp
      exact ⟨t, List.mem_cons_of_mem _ ht, hresult⟩
    · exact (hs.inFlight f hf).imp_right (List.mem_cons_of_mem _)
    · exact (hs.pending p hp).imp_left (List.mem_cons_of_mem _)

theorem withState (state : FileState) : Since e calls { slot with state } :=
  ⟨hs.closed, hs.opened, hs.text, hs.newest, hs.published, hs.inFlight, hs.pending⟩

theorem markDirty : slot.markDirty.Since e calls :=
  ⟨Nat.le_succ_of_le hs.closed, fun _ => Nat.lt_succ_of_le hs.closed, hs.text,
    fun _ hcall => .inl (Nat.lt_succ_of_le (hs.call_le hcall)), hs.published, hs.inFlight, hs.pending⟩

theorem pending_none (hnone : slot.inFlight = none) : slot.pending = none := by
  refine Option.eq_none_iff_forall_ne_some.mpr fun p hp => ?_
  obtain ⟨-, f, hf, -⟩ := hs.pending p hp
  rw [hnone] at hf
  cases hf

theorem calls_nil (htext : slot.text = none) : calls = [] := by
  have hhead := hs.text.symm.trans htext
  rwa [Option.map_eq_none_iff, List.head?_eq_none_iff] at hhead

theorem start (hnone : slot.inFlight = none) (hf : slot.Admits calls f.version f.text) :
    (slot.start f).Since e calls := by
  refine ⟨hs.closed, hs.opened, hs.text, hs.newest, hs.published, fun f' hf' => ?_, fun p hp => ?_⟩
  · obtain rfl := Option.some.inj hf'
    exact hf
  · have hpending := (show slot.pending = some p from hp).symm.trans (hs.pending_none hnone)
    cases hpending

theorem settle (hf : slot.Admits calls f.version f.text) (houtcome : e.analyze f.text = outcome) :
    Since e calls { slot.settle f outcome with pending := none } := by
  by_cases hclosed : f.version ≤ slot.closedAt
  · rw [settle_closed hclosed]
    exact ⟨hs.closed, hs.opened, hs.text, hs.newest, hs.published, by simp, by simp⟩
  cases outcome with
  | error failure =>
    rw [settle_error hclosed]
    exact ⟨hs.closed, hs.opened, hs.text, hs.newest, hs.published, by simp, by simp⟩
  | ok result =>
    rw [settle_ok hclosed]
    refine ⟨hs.closed, hs.opened, hs.text, hs.newest, fun p hp => ?_, by simp, by simp⟩
    dsimp only at hp
    split at hp
    · exact hs.published p hp
    · obtain rfl := Option.some.inj hp
      exact ⟨f.text, hf.resolve_left hclosed, houtcome⟩

end Since

@[simp] theorem observe_closedAt (slot : Slot ρ) (text : Text) :
    (slot.observe text).closedAt = slot.closedAt := by
  unfold observe
  split <;> rfl

end Slot

/-- A state, with the versions and texts of the calls since the file was closed, the last call first. -/
structure Recorded (ρ : Type) where
  checks : FileChecks ρ := {}
  calls : List (Nat × Text) := []

namespace Recorded

open FileChecks

inductive Step (e : FrontEnd ρ) : Recorded ρ → Recorded ρ → Prop
  | request (s : FileChecks ρ) (calls : List (Nat × Text)) (text : Text) :
    Step e ⟨s, calls⟩ ⟨s.request text, ((s.theSlot.observe text).version, text) :: calls⟩
  | turn (s : FileChecks ρ) (calls : List (Nat × Text)) (c : Caller ρ) (hc : c ∈ s.callers)
    (hready : c.waiting = .ready) : Step e ⟨s, calls⟩ ⟨s.turn c, calls⟩
  | poll (s : FileChecks ρ) (calls : List (Nat × Text)) (text : Text) :
    Step e ⟨s, calls⟩ ⟨(s.poll text).2, ((s.theSlot.observe text).version, text) :: calls⟩
  | markDirty (s : FileChecks ρ) (calls : List (Nat × Text)) : Step e ⟨s, calls⟩ ⟨s.markDirty, calls⟩
  | close (s : FileChecks ρ) (calls : List (Nat × Text)) : Step e ⟨s, calls⟩ ⟨s.close, []⟩
  | work (s : FileChecks ρ) (calls : List (Nat × Text)) (t : Task ρ) (ht : t ∈ s.tasks) :
    Step e ⟨s, calls⟩ ⟨s.work e t, calls⟩

variable {r r' : Recorded ρ}

theorem Step.checks (h : Step e r r') : FileChecks.Step e r.checks r'.checks := by
  cases h with
  | request s calls text => exact .request s text
  | turn s calls c hc hready => exact .turn s c hc hready
  | poll s calls text => exact .poll s text
  | markDirty s calls => exact .markDirty s
  | close s calls => exact .close s
  | work s calls t ht => exact .work s t ht

theorem exists_step {s : FileChecks ρ} (h : FileChecks.Step e r.checks s) :
    ∃ calls, Step e r ⟨s, calls⟩ := by
  cases h with
  | request text => exact ⟨_, .request _ _ text⟩
  | turn c hc hready => exact ⟨_, .turn _ _ c hc hready⟩
  | poll text => exact ⟨_, .poll _ _ text⟩
  | markDirty => exact ⟨_, .markDirty _ _⟩
  | close => exact ⟨_, .close _ _⟩
  | work t ht => exact ⟨_, .work _ _ t ht⟩

/-- A step that does not forget the slot while a call waits. -/
def OrderlyStep (e : FrontEnd ρ) (r r' : Recorded ρ) : Prop :=
  Step e r r' ∧ (Forgets r.checks r'.checks → ¬r.checks.Waits)

theorem orderly_of_run (hrun : Relation.ReflTransGen (OrderlyStep e) {} r) : Orderly e r.checks := by
  induction hrun with
  | refl => exact .start
  | tail _ hstep ih => exact .step ih hstep.1.checks hstep.2

theorem exists_run {s : FileChecks ρ} (hs : Orderly e s) :
    ∃ calls, Relation.ReflTransGen (OrderlyStep e) {} ⟨s, calls⟩ := by
  induction hs with
  | start => exact ⟨[], .refl⟩
  | step _ hstep hwaits ih =>
    obtain ⟨calls, hrun⟩ := ih
    obtain ⟨calls', hstep⟩ := exists_step (r := ⟨_, calls⟩) hstep
    exact ⟨calls', hrun.tail ⟨hstep, hwaits⟩⟩

theorem run_of_works {s : FileChecks ρ} (hrun : Relation.ReflTransGen (Works e) r.checks s) :
    Relation.ReflTransGen (Step e) r ⟨s, r.calls⟩ := by
  refine hrun.lift (fun s => (⟨s, r.calls⟩ : Recorded ρ)) fun s s' hworks => ?_
  obtain ⟨t, ht, rfl⟩ := hworks
  exact .work s r.calls t ht

theorem run_markDirty (s : FileChecks ρ) (calls : List (Nat × Text)) (n : Nat) :
    Relation.ReflTransGen (Step e) ⟨s, calls⟩ ⟨FileChecks.markDirty^[n] s, calls⟩ := by
  induction n with
  | zero => exact .refl
  | succ n ih =>
    rw [Function.iterate_succ_apply']
    exact ih.tail (.markDirty _ _)

end Recorded

namespace FileChecks

variable {s s' : FileChecks ρ} {slot : Slot ρ} {calls' : List (Nat × Text)} {t : Task ρ} {outcome : Outcome ρ}

structure Since (e : FrontEnd ρ) (calls : List (Nat × Text)) (s : FileChecks ρ) : Prop where
  slot : s.theSlot.Since e calls
  callers : ∀ c ∈ s.callers, c.Waits → s.theSlot.Admits calls c.version c.text

theorem since_empty (e : FrontEnd ρ) : Since e [] ({} : FileChecks ρ) := ⟨Slot.since_empty e, by simp⟩

theorem theSlot_of_slot (hslot : s.slot = some slot) : s.theSlot = slot := by
  rw [theSlot, hslot]
  rfl

theorem theSlot_inFlight (hs : Exclusive s) (ht : t ∈ s.tasks) (hgoes : t.GoesOn) :
    s.slot = some s.theSlot ∧ s.theSlot.inFlight = some t.flight := by
  obtain ⟨slot, hslot, hf⟩ := hs.owned t ht hgoes
  rw [theSlot_of_slot hslot]
  exact ⟨hslot, hf⟩

namespace Since

variable (hs : Since e calls s)

include hs

theorem of_callers (hslot : s'.theSlot.Since e calls')
    (hadmits : ∀ v text, s.theSlot.Admits calls v text → s'.theSlot.Admits calls' v text)
    (hcallers : ∀ c' ∈ s'.callers, c'.Waits →
      ∃ c ∈ s.callers, c.Waits ∧ c'.version = c.version ∧ c'.text = c.text) : Since e calls' s' := by
  refine ⟨hslot, fun c' hc' hwaits => ?_⟩
  obtain ⟨c, hc, hwaits, hversion, htext⟩ := hcallers c' hc' hwaits
  rw [hversion, htext]
  exact hadmits _ _ (hs.callers c hc hwaits)

theorem withSlot (hslot : s'.theSlot.Since e calls')
    (hadmits : ∀ v text, s.theSlot.Admits calls v text → s'.theSlot.Admits calls' v text)
    (hcallers : s'.callers = s.callers) : Since e calls' s' :=
  hs.of_callers hslot hadmits fun c' hc' hwaits => ⟨c', hcallers ▸ hc', hwaits, rfl, rfl⟩

theorem setWaiting {c : Caller ρ} {w : Waiting ρ} (hc : c ∈ s.callers) (hwaits : c.Waits)
    (hunique : ∀ c' ∈ s.callers, c'.id = c.id → c' = c) : Since e calls (s.setWaiting c.id w) := by
  refine hs.of_callers hs.slot (fun _ _ => id) fun c' hc' hwaits' => ?_
  obtain ⟨c₀, hc₀, rfl⟩ := List.mem_map.mp hc'
  split
  case isTrue hid =>
    rw [hunique c₀ hc₀ hid]
    exact ⟨c, hc, hwaits, rfl, rfl⟩
  case isFalse hid =>
    rw [if_neg hid] at hwaits'
    exact ⟨c₀, hc₀, hwaits', rfl, rfl⟩

theorem request (text : Text) :
    Since e (((s.theSlot.observe text).version, text) :: calls) (s.request text) := by
  have hadmits (v : Nat) (t : Text) (h : s.theSlot.Admits calls v t) :
      (s.theSlot.observe text).Admits (((s.theSlot.observe text).version, text) :: calls) v t := by
    rw [Slot.Admits, Slot.observe_closedAt]
    exact h.imp_right (List.mem_cons_of_mem _)
  refine ⟨hs.slot.observe text, fun c hc hwaits => ?_⟩
  rcases List.mem_append.mp hc with hc | hc
  · exact hadmits _ _ (hs.callers c hc hwaits)
  · rw [List.mem_singleton.mp hc]
    exact .inr List.mem_cons_self

theorem launch (slot' : Slot ρ) (hslot' : slot'.Since e calls)
    (hclosedAt : slot'.closedAt = s.theSlot.closedAt) (hnone : slot'.inFlight = none) {version : Nat}
    {text : Text} (hadmits : slot'.Admits calls version text) :
    Since e calls (s.launch slot' version text) := by
  refine hs.withSlot (hslot'.start hnone hadmits) (fun v t h => ?_) rfl
  exact h.imp_left fun hle => Nat.le_trans hle (Nat.le_of_eq hclosedAt.symm)

theorem turn {c : Caller ρ} (hcoherent : Coherent e history s) (hc : c ∈ s.callers)
    (hready : c.waiting = .ready) : Since e calls (s.turn c) := by
  have hwaits : c.Waits := by simp [Caller.Waits, hready]
  have hunique (c' : Caller ρ) (hc' : c' ∈ s.callers) (hid : c'.id = c.id) : c' = c :=
    hcoherent.caller_unique hc' hc hid
  simp only [FileChecks.turn]
  split
  case h_1 => exact hs.setWaiting hc hwaits hunique
  case h_2 => exact hs.setWaiting hc hwaits hunique
  case h_3 _ hnone =>
    have hlaunch := hs.launch s.theSlot hs.slot rfl hnone (hs.callers c hc hwaits)
    exact hlaunch.setWaiting hc hwaits hunique

theorem poll (text : Text) :
    Since e (((s.theSlot.observe text).version, text) :: calls) (s.poll text).2 := by
  have hslot := hs.slot.observe text
  have hadmits (v : Nat) (t : Text) (h : s.theSlot.Admits calls v t) :
      (s.theSlot.observe text).Admits (((s.theSlot.observe text).version, text) :: calls) v t := by
    rw [Slot.Admits, Slot.observe_closedAt]
    exact h.imp_right (List.mem_cons_of_mem _)
  unfold FileChecks.poll
  simp only
  split
  case h_1 => exact hs.withSlot hslot hadmits rfl
  case h_2 => exact hs.withSlot (hslot.withState _) hadmits rfl
  case h_3 f _ _ hf =>
    split
    case isTrue => exact hs.withSlot hslot hadmits rfl
    case isFalse hother =>
      refine hs.withSlot ?_ hadmits rfl
      refine ⟨hslot.closed, hslot.opened, hslot.text, hslot.newest, hslot.published, hslot.inFlight,
        fun p hp => ?_⟩
      obtain rfl := Option.some.inj hp
      exact ⟨List.mem_cons_self, f, hf, hother⟩
  case h_4 _ _ hnone =>
    have hs' : Since e (((s.theSlot.observe text).version, text) :: calls)
        { s with slot := some (s.theSlot.observe text) } := hs.withSlot hslot hadmits rfl
    exact hs'.launch _ hslot rfl hnone (.inr List.mem_cons_self)

theorem markDirty : Since e calls s.markDirty := by
  cases hslot : s.slot with
  | none =>
    rw [markDirty_of_unknown hslot]
    exact hs
  | some slot =>
    have hmarked : s.markDirty.theSlot = s.theSlot.markDirty := by
      simp [FileChecks.markDirty, theSlot, hslot]
    refine hs.withSlot (hmarked ▸ hs.slot.markDirty) (fun v text h => ?_) rfl
    rw [hmarked]
    exact h

theorem advance (hexclusive : Exclusive s) (ht : t ∈ s.tasks) (hgoes : t.GoesOn) :
    Since e calls (s.advance t.flight) := by
  obtain ⟨hslot, -⟩ := theSlot_inFlight hexclusive ht hgoes
  obtain ⟨state, hadvance⟩ := s.theSlot.advance_eq t.flight
  have hslot' : (s.advance t.flight).theSlot = { s.theSlot with state } := by
    apply theSlot_of_slot
    simp [FileChecks.advance, hslot, hadvance]
  refine hs.withSlot (hslot' ▸ hs.slot.withState state) (fun v text h => ?_) rfl
  rw [hslot']
  exact h

theorem settle (hexclusive : Exclusive s) (ht : t ∈ s.tasks) (hgoes : t.GoesOn)
    (houtcome : e.analyze t.flight.text = outcome)
    (hwaits : (s.settle t.flight outcome).slot = none → ¬s.Waits) :
    Since e calls (s.settle t.flight outcome) := by
  obtain ⟨hslot, hf⟩ := theSlot_inFlight hexclusive ht hgoes
  obtain ⟨state, published, failure, heq⟩ := s.theSlot.settle_eq t.flight outcome
  have hnext := hs.slot.settle (hs.slot.inFlight _ hf) houtcome
  have hs' : Since e calls { s.setProgress t.flight (.settled outcome) with
      slot := some { s.theSlot.settle t.flight outcome with pending := none } } :=
    hs.withSlot hnext (fun v text h => by rw [theSlot, Option.getD_some, heq]; exact h) rfl
  rcases settle_cases hslot hf outcome with ⟨text, hpending, hlaunch⟩ | ⟨htext, hforgotten⟩ | ⟨-, hkept⟩
  · rw [hlaunch]
    refine hs'.launch _ hnext rfl (by rw [heq]) (.inr (hs.slot.pending _ hpending).1)
  · rw [hforgotten] at hwaits ⊢
    -- no call has come in since the file was closed
    obtain rfl := hs.slot.calls_nil htext
    exact ⟨Slot.since_empty e, fun c hc hcwaits => absurd ⟨c, hc, hcwaits⟩ (hwaits rfl)⟩
  · exact hkept ▸ hs'

theorem complete (f : Flight) (outcome : Outcome ρ) : Since e calls (s.complete f outcome) := by
  refine hs.of_callers hs.slot (fun _ _ => id) fun c' hc' hwaits => ?_
  obtain ⟨c, hc, rfl⟩ := List.mem_map.mp hc'
  refine ⟨c, hc, ?_⟩
  split at hwaits
  case h_1 id hjoined =>
    split at hwaits
    · exact hwaits.elim
    · simp [Caller.Waits, hjoined] at hwaits
  case h_2 id hbehind =>
    refine ⟨by simp [Caller.Waits, hbehind], ?_⟩
    split <;> exact ⟨rfl, rfl⟩
  case h_3 => exact ⟨hwaits, rfl, rfl⟩

end Since

theorem Since.close (hs : Coherent e history s)
    (hwaits : s.slot.isSome → s.close.slot = none → ¬s.Waits) : Since e [] s.close := by
  have hknown (c : Caller ρ) (hc : c ∈ s.callers) (hcwaits : c.Waits) :
      ∃ slot, s.slot = some slot ∧ c.version ≤ slot.version := by
    obtain ⟨-, slot, hslot, hle, -⟩ := hs.knows_of_waits hc hcwaits
    exact ⟨slot, hslot, hle⟩
  cases hclosed : s.close.slot with
  | none =>
    refine ⟨?_, fun c hc hcwaits => ?_⟩
    · rw [theSlot, hclosed]
      exact Slot.since_empty e
    · obtain ⟨slot, hslot, -⟩ := hknown c hc hcwaits
      exact absurd ⟨c, hc, hcwaits⟩ (hwaits (by simp [hslot]) hclosed)
  | some slot' =>
    obtain ⟨slot, hslot, hclose⟩ := Option.bind_eq_some_iff.mp hclosed
    obtain ⟨f, hf, rfl⟩ := Option.map_eq_some_iff.mp hclose
    have htheSlot := theSlot_of_slot hclosed
    refine ⟨?_, fun c hc hcwaits => ?_⟩
    · rw [htheSlot]
      refine ⟨Nat.le_refl _, by simp, rfl, by simp, by simp, fun f' hf' => .inl ?_, by simp⟩
      obtain rfl := Option.some.inj hf'
      exact ((hs.slot slot hslot).inFlight f hf).1
    · obtain ⟨slot', hslot', hle⟩ := hknown c hc hcwaits
      obtain rfl := Option.some.inj (hslot.symm.trans hslot')
      rw [htheSlot]
      exact .inl hle

theorem Since.step {r r' : Recorded ρ} (hcoherent : Coherent e history r.checks)
    (hs : Since e r.calls r.checks) (hstep : Recorded.OrderlyStep e r r') : Since e r'.calls r'.checks := by
  obtain ⟨hstep, hwaits⟩ := hstep
  cases hstep with
  | request s calls text => exact hs.request text
  | turn s calls c hc hready => exact hs.turn hcoherent hc hready
  | poll s calls text => exact hs.poll text
  | markDirty s calls => exact hs.markDirty
  | close s calls => exact .close hcoherent fun hsome hnone => hwaits ⟨hsome, hnone⟩
  | work s calls t ht =>
    have hexclusive := hcoherent.exclusive
    obtain ⟨hgoes, -, hwork⟩ | ⟨outcome, hgoes, hright, hwork⟩ | ⟨outcome, -, hwork⟩ := work_cases e s t
    · rw [hwork]
      exact hs.advance hexclusive ht hgoes
    · obtain ⟨slot, hslot, -⟩ := hexclusive.owned t ht hgoes
      rw [hwork] at hwaits ⊢
      refine hs.settle hexclusive ht hgoes (hright (hcoherent.tasks t ht)) fun hnone => ?_
      exact hwaits ⟨Option.isSome_iff_exists.mpr ⟨slot, hslot⟩, hnone⟩
    · rw [hwork]
      exact hs.complete t.flight outcome

theorem since_of_run {r : Recorded ρ} (hrun : Relation.ReflTransGen (Recorded.OrderlyStep e) {} r) :
    Since e r.calls r.checks := by
  induction hrun with
  | refl => exact since_empty e
  | tail hrun hstep ih =>
    obtain ⟨history, hcoherent⟩ := (Recorded.orderly_of_run hrun).coherent
    exact ih.step hcoherent hstep

theorem turn_of_unknown (hslot : s.slot = none) (c : Caller ρ) :
    s.turn c = (s.launch {} c.version c.text).setWaiting c.id (.joined s.flights) := by
  simp [turn, theSlot, hslot, Slot.publishedFor?]

/-- A call that has its turn where the slot is forgotten gets its result published beside another text. -/
theorem late_turn_publishes (hslot : s.slot = none) {c : Caller ρ} (hc : c ∈ s.callers)
    (hready : c.waiting = .ready) (hversion : 0 < c.version) {result : ρ}
    (hresult : e.analyze c.text = .ok result) (calls : List (Nat × Text)) (text : Text) :
    ∃ s' t, Relation.ReflTransGen (Recorded.Step e) ⟨s, calls⟩ ⟨s', (1, text) :: calls⟩ ∧ t ∈ s'.tasks ∧
      t.progress = .checking ∧ t.flight.text = c.text ∧
      s'.slot = some { version := t.flight.version, text := some text, state := .checking
                       inFlight := some t.flight } ∧
      (s'.work e t).slot = some { version := t.flight.version, text := some text, state := .ready
                                  published := some (t.flight.version, result) } := by
  obtain ⟨hread, hcheck⟩ := FrontEnd.analyze_ok hresult
  let f : Flight := ⟨s.flights, c.version, c.text⟩
  let s₁ := (s.turn c).request text
  let s₂ := markDirty^[c.version - 1] s₁
  have hturn : (s.turn c).theSlot = { inFlight := some f, state := .parsing } := by
    rw [turn_of_unknown hslot]
    rfl
  -- the slot was forgotten, so for it the request brings version 1 of another text
  have hrequest : s₁.slot =
      some { version := 1, text := some text, inFlight := some f, state := .parsing } := by
    simp [s₁, request, hturn, Slot.observe]
  -- edits lift the version to that of the flight, whose result then counts as up to date
  have hdirty : s₂ = { s₁ with slot := some { version := c.version, text := some text
                                              inFlight := some f, state := .parsing } } := by
    have hiterate := markDirty_iterate (by rfl) hrequest (c.version - 1)
    rwa [show 1 + (c.version - 1) = c.version by omega] at hiterate
  have hbegun : (⟨f, .parsing⟩ : Task ρ) ∈ s₂.tasks := by
    rw [hdirty]
    change _ ∈ (s.turn c).tasks
    rw [turn_of_unknown hslot]
    exact List.mem_append_right _ (List.mem_singleton_self _)
  have hadvance : s₂.work e ⟨f, .parsing⟩ = s₂.advance f := by simp [work, f, hread]
  have hchecking : (⟨f, .checking⟩ : Task ρ) ∈ (s₂.advance f).tasks := by
    refine List.mem_map.mpr ⟨_, hbegun, ?_⟩
    rw [if_pos rfl]
  have hslot' : (s₂.advance f).slot =
      some { version := c.version, text := some text, state := .checking, inFlight := some f } := by
    simp [advance, hdirty, Slot.advance, Slot.owns, f, hversion]
  refine ⟨s₂.advance f, ⟨f, .checking⟩, ?_, hchecking, rfl, rfl, hslot', ?_⟩
  · have hcalls : Relation.ReflTransGen (Recorded.Step e) ⟨s, calls⟩ ⟨s₁, (1, text) :: calls⟩ := by
      have hstep := Recorded.Step.request (e := e) (s.turn c) calls text
      rw [show ((s.turn c).theSlot.observe text).version = 1 by rw [hturn]; simp [Slot.observe]] at hstep
      exact (Relation.ReflTransGen.single (.turn s calls c hc hready)).tail hstep
    have hedits : Relation.ReflTransGen (Recorded.Step e) ⟨s₁, (1, text) :: calls⟩ ⟨s₂, (1, text) :: calls⟩ :=
      Recorded.run_markDirty s₁ _ _
    exact (hcalls.trans hedits).tail (hadvance ▸ .work s₂ _ _ hbegun)
  · have hopen : ¬f.version ≤ 0 := Nat.not_le_of_lt hversion
    have hsettle : (s₂.advance f).work e ⟨f, .checking⟩ = (s₂.advance f).settle f (.ok result) := by
      simp [work, f, hcheck]
    rw [hsettle]
    rcases settle_cases hslot' rfl (.ok result) with ⟨_, hpending, -⟩ | ⟨htext, -⟩ | ⟨-, hkept⟩
    · cases hpending
    · cases htext
    · rw [hkept, Slot.settle_ok hopen]
      simp [f]

end FileChecks

namespace Recorded

open FileChecks

variable {r r' : Recorded ρ}

/-- Where the slot is forgotten, no call has come in since the file was closed. -/
theorem calls_of_forgets (hexclusive : Exclusive r.checks) (hs : Since e r.calls r.checks)
    (hstep : Step e r r') (hforgets : Forgets r.checks r'.checks) : r'.calls = [] := by
  obtain ⟨hsome, hnone⟩ := hforgets
  cases hstep with
  | request s calls text => cases hnone
  | turn s calls c hc hready => simp [turn_keeps hnone] at hsome
  | poll s calls text => exact (poll_keeps hnone).elim
  | markDirty s calls => simp [markDirty_keeps hnone] at hsome
  | close s calls => rfl
  | work s calls t ht =>
    dsimp only at hnone hsome ⊢
    obtain ⟨-, -, hwork⟩ | ⟨outcome, hgoes, -, hwork⟩ | ⟨outcome, -, hwork⟩ := work_cases e s t
    · rw [hwork] at hnone
      simp [advance_keeps hnone] at hsome
    · obtain ⟨hslot, hf⟩ := theSlot_inFlight hexclusive ht hgoes
      rw [hwork] at hnone
      exact hs.slot.calls_nil (settle_forgets hslot hf hnone).1
    · rw [hwork] at hnone
      have hslot : s.slot = none := hnone
      simp [hslot] at hsome

/-- Where the slot is forgotten while a call waits, the run can go on so that the result of the call is
shown beside another text. -/
theorem forgotten_call_publishes (he : e.Distinguishes) (hcoherent : Coherent e history r.checks)
    (hs : Since e r.calls r.checks) (hstep : Step e r r') (hforgets : Forgets r.checks r'.checks)
    (hwaits : r.checks.Waits) :
    ∃ s t result text, Relation.ReflTransGen (Step e) r' ⟨s, [(1, text)]⟩ ∧ t ∈ s.tasks ∧
      t.progress = .checking ∧ text ≠ t.flight.text ∧ e.analyze t.flight.text = .ok result ∧
      s.slot = some { version := t.flight.version, text := some text, state := .checking
                      inFlight := some t.flight } ∧
      (s.work e t).slot = some { version := t.flight.version, text := some text, state := .ready
                                 published := some (t.flight.version, result) } := by
  obtain ⟨s₁, c, hrun, hslot, hc, hready, hversion⟩ :=
    hcoherent.forgotten_call hstep.checks hforgets hwaits
  obtain ⟨result, hresult⟩ := he.succeeds c.text
  obtain ⟨s₂, t, hrun', ht, hchecking, htext, hslots⟩ :=
    late_turn_publishes hslot hc hready hversion hresult [] ('x' :: c.text)
  have hworks : Relation.ReflTransGen (Step e) r' ⟨s₁, []⟩ := by
    have hcalls := calls_of_forgets hcoherent.exclusive hs hstep hforgets
    have hrun := run_of_works hrun
    rwa [hcalls] at hrun
  refine ⟨s₂, t, result, _, hworks.trans hrun', ht, hchecking, ?_, htext ▸ hresult, hslots⟩
  rw [htext]
  exact List.cons_ne_self _ _

end Recorded
end ScriptAnalyzer

import ScriptAnalyzer.Proofs.Analysis.Files
import ScriptAnalyzer.Proofs.Analysis.Readiness

/-!
The text that is queued behind the analysis of another one. When that analysis settles, the queued text is
analysed if the file has not been marked dirty since the text was queued, and is dropped if it has.
-/

namespace ScriptAnalyzer

variable {ρ : Type} {e : FrontEnd ρ}

namespace FileChecks

variable {s s' start : FileChecks ρ} {text : Text} {f : Flight} {t : Task ρ} {marked : Bool}

/-- The text stands in the queue, under the newest version. -/
def Queued (s : FileChecks ρ) (text : Text) : Prop :=
  s.flight?.isSome ∧ s.theSlot.pending = some (s.theSlot.version, text)

/-- An analysis of the text has begun, and the slot holds it. -/
def Starts (s s' : FileChecks ρ) (text : Text) : Prop :=
  ∃ version, s'.flight? = some ⟨s.flights, version, text⟩ ∧
    ∃ t ∈ s'.tasks, t.flight = ⟨s.flights, version, text⟩ ∧ t.GoesOn

/-- What can happen between the request that queues a text and the end of the analysis in front of it, as
long as the file is not closed and no other text is asked for. The flag tells whether the file has been
marked dirty since the text was last queued. -/
inductive Meanwhile (e : FrontEnd ρ) (text : Text) (start : FileChecks ρ) : Bool → FileChecks ρ → Prop
  | queued (hqueued : (start.poll text).2.Queued text) : Meanwhile e text start false (start.poll text).2
  | request {marked : Bool} {s : FileChecks ρ} (h : Meanwhile e text start marked s) :
    Meanwhile e text start marked (s.request text)
  | turn {marked : Bool} {s : FileChecks ρ} (h : Meanwhile e text start marked s) (c : Caller ρ)
    (hc : c ∈ s.callers) (hready : c.waiting = .ready) : Meanwhile e text start marked (s.turn c)
  | queuedAgain {marked : Bool} {s : FileChecks ρ} (h : Meanwhile e text start marked s)
    (hqueued : (s.poll text).2.Queued text) : Meanwhile e text start false (s.poll text).2
  | poll {marked : Bool} {s : FileChecks ρ} (h : Meanwhile e text start marked s)
    (hother : ¬(s.poll text).2.Queued text) : Meanwhile e text start marked (s.poll text).2
  | markDirty {marked : Bool} {s : FileChecks ρ} (h : Meanwhile e text start marked s) :
    Meanwhile e text start true s.markDirty
  | work {marked : Bool} {s : FileChecks ρ} (h : Meanwhile e text start marked s) (t : Task ρ)
    (ht : t ∈ s.tasks) (hgoes : (s.work e t).flight? = s.flight?) : Meanwhile e text start marked (s.work e t)

/-! What an analysis that goes on leaves of the slot -/

theorem slot_of_flight (h : s.flight? = some f) : s.slot = some s.theSlot ∧ s.theSlot.inFlight = some f := by
  obtain ⟨slot, hslot, hf⟩ := flight?_eq_some_iff.mp h
  rw [theSlot_of_slot hslot]
  exact ⟨hslot, hf⟩

theorem turn_in_flight (h : s.flight? = some f) (c : Caller ρ) : (s.turn c).theSlot = s.theSlot := by
  obtain ⟨-, hf⟩ := slot_of_flight h
  simp only [turn]
  split
  case h_1 => rfl
  case h_2 => rfl
  case h_3 _ hnone =>
    rw [hf] at hnone
    cases hnone

/-- What a request that does not wait can change of the slot, besides noting its text. -/
theorem poll_slot (s : FileChecks ρ) (text : Text) :
    let slot := s.theSlot.observe text
    ∃ state pending inFlight, (s.poll text).2.theSlot = { slot with state, pending, inFlight } ∧
      (pending = slot.pending ∨ pending = some (slot.version, text)) ∧
      (inFlight = slot.inFlight ∧ (state = slot.state ∨ state = .unanalyzed) ∨
        slot.inFlight = none ∧ state = .parsing) := by
  simp only [poll]
  split
  case h_1 => exact ⟨_, _, _, rfl, .inl rfl, .inl ⟨rfl, .inl rfl⟩⟩
  case h_2 => exact ⟨_, _, _, rfl, .inl rfl, .inl ⟨rfl, .inr rfl⟩⟩
  case h_3 f _ _ _ =>
    by_cases hcurrent : f.version = (s.theSlot.observe text).version
    · simp only [if_pos hcurrent]
      exact ⟨_, _, _, rfl, .inl rfl, .inl ⟨rfl, .inl rfl⟩⟩
    · simp only [if_neg hcurrent]
      exact ⟨_, _, _, rfl, .inr rfl, .inl ⟨rfl, .inl rfl⟩⟩
  case h_4 _ _ hnone => exact ⟨_, _, _, rfl, .inl rfl, .inr ⟨hnone, rfl⟩⟩

theorem poll_in_flight (h : s.flight? = some f) (htext : s.theSlot.text = some text)
    (hversion : 0 < s.theSlot.version) :
    ∃ state pending, (s.poll text).2.theSlot = { s.theSlot with state, pending } ∧
      (pending = s.theSlot.pending ∨ pending = some (s.theSlot.version, text)) := by
  obtain ⟨-, hf⟩ := slot_of_flight h
  obtain ⟨state, pending, inFlight, hslot, hpending, hinFlight⟩ := s.poll_slot text
  rw [Slot.observe_same htext hversion] at hslot hpending hinFlight
  obtain ⟨rfl, -⟩ | ⟨hnone, -⟩ := hinFlight
  · exact ⟨state, pending, hslot, hpending⟩
  · rw [hf] at hnone
    cases hnone

theorem markDirty_in_flight (h : s.flight? = some f) : s.markDirty.theSlot = s.theSlot.markDirty := by
  rw [markDirty, (slot_of_flight h).1]
  rfl

theorem settle_flight (hs : Exclusive s) (ht : t ∈ s.tasks) (hgoes : t.GoesOn) (outcome : Outcome ρ) :
    (s.settle t.flight outcome).flight? ≠ s.flight? := by
  obtain ⟨slot, hslot, hf⟩ := hs.owned t ht hgoes
  obtain ⟨state, published, failure, heq⟩ := slot.settle_eq t.flight outcome
  rw [flight?_of_slot hslot, hf]
  rcases settle_cases hslot hf outcome with ⟨text, -, hlaunch⟩ | ⟨-, hforgotten⟩ | ⟨-, hkept⟩
  · rw [hlaunch]
    intro hsame
    have hid : s.flights = t.flight.id := congrArg Flight.id (Option.some.inj hsame)
    exact Nat.ne_of_gt (hs.taskBound t ht) hid
  · rw [hforgotten]
    exact nofun
  · rw [hkept, flight?_of_slot rfl, heq]
    exact nofun

/-- An analysis whose next step ends with the slot has settled. -/
theorem work_ends (hs : Exclusive s) (ht : t ∈ s.tasks) (hends : (s.work e t).flight? ≠ s.flight?) :
    ∃ outcome, t.GoesOn ∧ s.work e t = s.settle t.flight outcome := by
  obtain ⟨hgoes, -, hwork⟩ | ⟨outcome, hgoes, -, hwork⟩ | ⟨outcome, -, hwork⟩ := work_cases e s t
  · obtain ⟨hslot, hf⟩ := theSlot_inFlight hs ht hgoes
    obtain ⟨state, hadvance⟩ := s.theSlot.advance_eq t.flight
    refine absurd ?_ hends
    rw [hwork, flight?_of_slot (show (s.advance t.flight).slot = some { s.theSlot with state } by
      rw [← hadvance, advance, hslot, Option.map_some]), flight?_theSlot]
  · exact ⟨outcome, hgoes, hwork⟩
  · refine absurd ?_ hends
    rw [hwork]
    rfl

theorem work_in_flight (hs : Exclusive s) (ht : t ∈ s.tasks) (hgoes : (s.work e t).flight? = s.flight?) :
    ∃ state, (s.work e t).theSlot = { s.theSlot with state } := by
  obtain ⟨hon, -, hwork⟩ | ⟨outcome, hon, -, hwork⟩ | ⟨outcome, -, hwork⟩ := work_cases e s t
  · obtain ⟨hslot, -⟩ := theSlot_inFlight hs ht hon
    obtain ⟨state, hadvance⟩ := s.theSlot.advance_eq t.flight
    refine ⟨state, ?_⟩
    rw [hwork, ← hadvance]
    apply theSlot_of_slot
    rw [advance, hslot, Option.map_some]
  · rw [hwork] at hgoes
    exact absurd hgoes (settle_flight hs ht hon outcome)
  · exact ⟨s.theSlot.state, by rw [hwork]; rfl⟩

/-- The slot while a text is queued behind the analysis `f`. Its last result, and the version under which
the text was first queued, stay as they were. -/
structure Holds (text : Text) (f : Flight) (published : Option (Nat × ρ)) (first : Nat) (marked : Bool)
    (s : FileChecks ρ) : Prop where
  exclusive : Exclusive s
  flight : s.flight? = some f
  asked : s.theSlot.text = some text
  published : s.theSlot.published = published
  pending : ∃ version, s.theSlot.pending = some (version, text) ∧ 0 < version ∧ first ≤ version ∧
    version ≤ s.theSlot.version ∧ (version = s.theSlot.version ↔ marked = false)

namespace Holds

variable {published : Option (Nat × ρ)} {first : Nat} (hs : Holds text f published first marked s)

include hs

theorem version_pos : 0 < s.theSlot.version := by
  obtain ⟨version, -, hpos, -, hle, -⟩ := hs.pending
  exact Nat.lt_of_lt_of_le hpos hle

theorem withState (hexclusive : Exclusive s') {state : FileState}
    (hslot : s'.theSlot = { s.theSlot with state }) : Holds text f published first marked s' := by
  refine ⟨hexclusive, ?_, ?_, ?_, ?_⟩
  · rw [flight?_theSlot, hslot, ← hs.flight, flight?_theSlot]
  · rw [hslot]
    exact hs.asked
  · rw [hslot]
    exact hs.published
  · rw [hslot]
    exact hs.pending

theorem request : Holds text f published first marked (s.request text) := by
  have hslot : (s.request text).theSlot = { s.theSlot with state := s.theSlot.state } :=
    Slot.observe_same hs.asked hs.version_pos
  exact hs.withState (hs.exclusive.request text) hslot

theorem turn (c : Caller ρ) : Holds text f published first marked (s.turn c) :=
  hs.withState (hs.exclusive.turn c) (turn_in_flight hs.flight c)

theorem work (ht : t ∈ s.tasks) (hgoes : (s.work e t).flight? = s.flight?) :
    Holds text f published first marked (s.work e t) := by
  obtain ⟨state, hslot⟩ := work_in_flight hs.exclusive ht hgoes
  exact hs.withState (hs.exclusive.work ht) hslot

theorem markDirty : Holds text f published first true s.markDirty := by
  have hslot := markDirty_in_flight hs.flight
  obtain ⟨version, hpending, hpos, hfirst, hle, -⟩ := hs.pending
  refine ⟨hs.exclusive.markDirty, ?_, ?_, ?_, version, ?_, hpos, hfirst, ?_⟩
  · rw [flight?_theSlot, hslot, Slot.markDirty_inFlight, ← flight?_theSlot, hs.flight]
  · rw [hslot]
    exact hs.asked
  · rw [hslot]
    exact hs.published
  · rw [hslot]
    exact hpending
  · rw [hslot]
    exact ⟨Nat.le_succ_of_le hle, fun hsame => absurd hsame (Nat.ne_of_lt (Nat.lt_succ_of_le hle)), nofun⟩

theorem poll_queued (hqueued : (s.poll text).2.Queued text) :
    Holds text f published first false (s.poll text).2 := by
  obtain ⟨state, pending, hslot, -⟩ := poll_in_flight hs.flight hs.asked hs.version_pos
  obtain ⟨version, -, -, hfirst, hle, -⟩ := hs.pending
  refine ⟨hs.exclusive.poll text, ?_, ?_, ?_, (s.poll text).2.theSlot.version, hqueued.2, ?_⟩
  · rw [flight?_theSlot, hslot, ← hs.flight, flight?_theSlot]
  · rw [hslot]
    exact hs.asked
  · rw [hslot]
    exact hs.published
  · rw [hslot]
    exact ⟨hs.version_pos, Nat.le_trans hfirst hle, Nat.le_refl _, iff_of_true rfl rfl⟩

theorem poll_other (hother : ¬(s.poll text).2.Queued text) :
    Holds text f published first marked (s.poll text).2 := by
  obtain ⟨state, pending, hslot, hpending⟩ := poll_in_flight hs.flight hs.asked hs.version_pos
  have hflight : (s.poll text).2.flight? = some f := by
    rw [flight?_theSlot, hslot, ← hs.flight, flight?_theSlot]
  obtain rfl := hpending.resolve_right fun hnewest => hother ⟨by rw [hflight]; rfl, by rw [hslot, hnewest]⟩
  exact hs.withState (hs.exclusive.poll text) hslot

end Holds

theorem Meanwhile.holds (hstart : Exclusive start) (h : Meanwhile e text start marked s) :
    ∃ f, (start.poll text).2.flight? = some f ∧ Holds text f (start.poll text).2.theSlot.published
      (start.poll text).2.theSlot.version marked s := by
  -- on what happens meanwhile; none of it ends the analysis, so the entry in the queue stays where it is
  induction h with
  | queued hqueued =>
    obtain ⟨f, hf⟩ := Option.isSome_iff_exists.mp hqueued.1
    obtain ⟨state, pending, inFlight, hslot, -⟩ := start.poll_slot text
    have htext : (start.poll text).2.theSlot.text = some text := by
      rw [hslot]
      exact start.theSlot.observe_text text
    have hversion : 0 < (start.poll text).2.theSlot.version := by
      rw [hslot]
      exact start.theSlot.observe_version_pos text
    exact ⟨f, hf, hstart.poll text, hf, htext, rfl, _, hqueued.2, hversion, Nat.le_refl _, Nat.le_refl _,
      iff_of_true rfl rfl⟩
  | request _ ih => exact ih.imp fun _ => And.imp_right Holds.request
  | turn _ c hc hready ih => exact ih.imp fun _ => And.imp_right (·.turn c)
  | queuedAgain _ hqueued ih => exact ih.imp fun _ => And.imp_right (·.poll_queued hqueued)
  | poll _ hother ih => exact ih.imp fun _ => And.imp_right (·.poll_other hother)
  | markDirty _ ih => exact ih.imp fun _ => And.imp_right Holds.markDirty
  | work _ t ht hgoes ih => exact ih.imp fun _ => And.imp_right (·.work ht hgoes)

theorem Meanwhile.first (h : Meanwhile e text start marked s) : (start.poll text).2.Queued text := by
  induction h with
  | queued hqueued => exact hqueued
  | request _ ih => exact ih
  | turn _ _ _ _ ih => exact ih
  | queuedAgain _ _ ih => exact ih
  | poll _ _ ih => exact ih
  | markDirty _ ih => exact ih
  | work _ _ _ _ ih => exact ih

theorem Meanwhile.run (h : Meanwhile e text start marked s) : Relation.ReflTransGen (Step e) start s := by
  induction h with
  | queued _ => exact .single (.poll start text)
  | request _ ih => exact ih.tail (.request _ text)
  | turn _ c hc hready ih => exact ih.tail (.turn _ c hc hready)
  | queuedAgain _ _ ih => exact ih.tail (.poll _ text)
  | poll _ _ ih => exact ih.tail (.poll _ text)
  | markDirty _ ih => exact ih.tail (.markDirty _)
  | work _ t ht _ ih => exact ih.tail (.work _ t ht)

/-! A failure is noted where the analysis settles, so while one goes on none is left to be told. -/

def Undecided (s : FileChecks ρ) : Prop := ∀ f, s.theSlot.inFlight = some f → s.theSlot.state ≠ .failed

theorem undecided_of_state (h : s.theSlot.state ≠ .failed) : Undecided s := fun _ _ => h

theorem undecided_of_idle (h : s.theSlot.inFlight = none) : Undecided s := by
  intro f hf
  rw [h] at hf
  cases hf

theorem Undecided.of_slot (hs : Undecided s) (hslot : s'.theSlot = s.theSlot) : Undecided s' := by
  rw [Undecided, hslot]
  exact hs

theorem Undecided.observe (hs : Undecided s) (text : Text) {f : Flight}
    (hf : (s.theSlot.observe text).inFlight = some f) : (s.theSlot.observe text).state ≠ .failed := by
  rw [Slot.observe_inFlight] at hf
  rcases s.theSlot.observe_cases text with h | h <;> rw [h] <;> exact hs f hf

theorem Undecided.poll (hs : Undecided s) (text : Text) : Undecided (s.poll text).2 := by
  obtain ⟨state, pending, inFlight, hslot, -, hinFlight⟩ := s.poll_slot text
  intro f hf
  rw [hslot] at hf ⊢
  obtain ⟨rfl, rfl | rfl⟩ | ⟨-, rfl⟩ := hinFlight
  · exact hs.observe text hf
  · exact nofun
  · exact nofun

theorem Undecided.markDirty (hs : Undecided s) : Undecided s.markDirty := by
  cases hslot : s.slot with
  | none =>
    rw [markDirty_of_unknown hslot]
    exact hs
  | some slot =>
    have hmarked : s.markDirty.theSlot = slot.markDirty := by simp [FileChecks.markDirty, theSlot, hslot]
    rw [Undecided, hmarked]
    rw [Undecided, theSlot_of_slot hslot] at hs
    intro f hf
    simp only [Slot.markDirty]
    split
    · rintro ⟨⟩
    · exact hs f hf

theorem close_state (s : FileChecks ρ) : s.close.theSlot.state = .unanalyzed := by
  cases hclosed : s.close.slot with
  | none => rw [theSlot, hclosed, Option.getD_none]
  | some slot' =>
    obtain ⟨slot, -, hclose⟩ := Option.bind_eq_some_iff.mp hclosed
    obtain ⟨f, -, rfl⟩ := Option.map_eq_some_iff.mp hclose
    rw [theSlot_of_slot hclosed]

theorem Undecided.work (hs : Undecided s) (hexclusive : Exclusive s) (ht : t ∈ s.tasks) :
    Undecided (s.work e t) := by
  obtain ⟨hgoes, -, hwork⟩ | ⟨outcome, hgoes, -, hwork⟩ | ⟨outcome, -, hwork⟩ := work_cases e s t
  · obtain ⟨hslot, hf⟩ := theSlot_inFlight hexclusive ht hgoes
    have hslot' : (s.work e t).theSlot = s.theSlot.advance t.flight := by
      rw [hwork]
      apply theSlot_of_slot
      rw [advance, hslot, Option.map_some]
    apply undecided_of_state
    rw [hslot', Slot.advance]
    split
    · rintro ⟨⟩
    · exact hs _ hf
  · obtain ⟨hslot, hf⟩ := theSlot_inFlight hexclusive ht hgoes
    obtain ⟨state, published, failure, heq⟩ := s.theSlot.settle_eq t.flight outcome
    rw [hwork]
    rcases settle_cases hslot hf outcome with ⟨text, -, hlaunch⟩ | ⟨-, hforgotten⟩ | ⟨-, hkept⟩
    · exact undecided_of_state (by rw [hlaunch]; simp [launch, theSlot, Slot.start])
    · exact undecided_of_idle (by rw [hforgotten]; rfl)
    · exact undecided_of_idle (by rw [theSlot_of_slot (by rw [hkept]), heq])
  · rw [hwork]
    exact hs.of_slot rfl

theorem Undecided.step (hs : Undecided s) (hexclusive : Exclusive s) (hstep : Step e s s') :
    Undecided s' := by
  cases hstep with
  | request text => exact fun f hf => hs.observe text hf
  | turn c hc hready =>
    simp only [turn]
    split
    case h_1 => exact hs.of_slot rfl
    case h_2 => exact hs.of_slot rfl
    case h_3 => exact undecided_of_state (by simp [setWaiting, launch, theSlot, Slot.start])
  | poll text => exact hs.poll text
  | markDirty => exact hs.markDirty
  | close => exact undecided_of_state (by rw [close_state]; rintro ⟨⟩)
  | work t ht => exact hs.work hexclusive ht

theorem undecided_of_run (hrun : Relation.ReflTransGen (Step e) {} s) : Exclusive s ∧ Undecided s := by
  induction hrun with
  | refl => exact ⟨exclusive_empty, undecided_of_idle rfl⟩
  | tail _ hstep ih => exact ⟨ih.1.step hstep, ih.2.step ih.1 hstep⟩

/-! In an orderly run each request for the text queues it again. -/

theorem Orderly.polled (hs : Orderly e s) (text : Text) : Orderly e (s.poll text).2 :=
  .step hs (.poll s text) fun hforgets => (poll_keeps hforgets.2).elim

/-- A queued text is newer than the last result, and than the text that is analysed. -/
theorem Queued.newest (hs : Orderly e s) (hqueued : s.Queued text) :
    (∀ p, s.theSlot.published = some p → p.1 < s.theSlot.version) ∧
      ∀ f, s.flight? = some f → f.version < s.theSlot.version := by
  obtain ⟨calls, hrun⟩ := Recorded.exists_run hs
  obtain ⟨history, hcoherent⟩ := hs.coherent
  have hreports : Reports s := Recorded.reports_of_run hrun
  have hsince : Since e calls s := since_of_run hrun
  refine ⟨fun p hp => ?_, fun f hf => ?_⟩
  -- nothing is queued once the newest version has a result, and the version in flight is never queued
  · refine Nat.lt_of_le_of_ne (hcoherent.theSlot.published p hp).1 fun hversion => ?_
    have hnone := hreports.pending ⟨p.2, by rw [hp, ← hversion]⟩
    rw [hqueued.2] at hnone
    cases hnone
  · obtain ⟨-, hf⟩ := slot_of_flight hf
    obtain ⟨-, f', hf', hother⟩ := hsince.slot.pending _ hqueued.2
    obtain rfl := Option.some.inj (hf.symm.trans hf')
    exact Nat.lt_of_le_of_ne (hcoherent.theSlot.inFlight f hf).1 hother

theorem Holds.poll_queues {published : Option (Nat × ρ)} {first : Nat}
    (hs : Holds text f published first marked s) (hundecided : Undecided s)
    (hpublished : ∀ p, published = some p → p.1 < first) (hf : f.version < first) :
    (s.poll text).2.Queued text := by
  obtain ⟨-, hinFlight⟩ := slot_of_flight hs.flight
  obtain ⟨version, -, -, hfirst, hle, -⟩ := hs.pending
  have hnone : s.theSlot.publishedFor? s.theSlot.version = none := by
    refine Option.eq_none_iff_forall_ne_some.mpr fun result hresult => ?_
    have hlt := hpublished _ (hs.published ▸ Slot.publishedFor?_eq hresult)
    dsimp only at hlt
    omega
  have huntold : s.theSlot.untoldFailure? = none := by
    rw [Slot.untoldFailure?, if_neg (hundecided f hinFlight)]
  have hother : f.version ≠ s.theSlot.version := by omega
  have hpoll : (s.poll text).2 =
      { s with slot := some { s.theSlot with pending := some (s.theSlot.version, text) } } := by
    simp only [poll, Slot.observe_same hs.asked hs.version_pos, hnone, huntold, hinFlight, if_neg hother]
  rw [hpoll]
  exact ⟨by rw [flight?_of_slot rfl, hinFlight]; rfl, rfl⟩

/-- The text in the queue is analysed when the analysis in front of it settles, if its version is the
newest. -/
theorem settle_pending {slot : Slot ρ} (hslot : s.slot = some slot) (hf : slot.inFlight = some f)
    (hpending : slot.pending = some (slot.version, text)) (outcome : Outcome ρ) :
    s.settle f outcome = (s.setProgress f (.settled outcome)).launch
      { slot.settle f outcome with pending := none } slot.version text := by
  have hfilter : (s.setProgress f (.settled outcome)).slot.filter (·.owns f) = some slot :=
    filter_owns hslot hf
  obtain ⟨state, published, failure, heq⟩ := slot.settle_eq f outcome
  have hnewest : slot.pending.filter (·.1 = slot.version) = some (slot.version, text) := by
    rw [hpending, Option.filter_some, if_pos (decide_eq_true rfl)]
  simp only [settle, hfilter, heq, Slot.takePending, hnewest]

theorem starts_of_launch {slot : Slot ρ} {version : Nat} (hflights : s'.flights = s.flights) :
    Starts s (s'.launch slot version text) text := by
  refine ⟨version, ?_, _, List.mem_append_right _ (List.mem_singleton_self _), ?_, trivial⟩
  all_goals rw [← hflights]
  rfl

theorem Holds.settles {published : Option (Nat × ρ)} {first : Nat}
    (hs : Holds text f published first marked s) (ht : t ∈ s.tasks)
    (hends : (s.work e t).flight? ≠ s.flight?) :
    marked = false ∧ Starts s (s.work e t) text ∨ marked = true ∧ (s.work e t).flight? = none := by
  obtain ⟨outcome, hgoes, hwork⟩ := work_ends hs.exclusive ht hends
  obtain ⟨hslot, hf⟩ := theSlot_inFlight hs.exclusive ht hgoes
  obtain ⟨version, hpending, -, -, -, hmarked⟩ := hs.pending
  obtain ⟨state, published, failure, heq⟩ := s.theSlot.settle_eq t.flight outcome
  rw [hwork]
  cases marked with
  | false =>
    rw [hmarked.mpr rfl] at hpending
    rw [settle_pending hslot hf hpending]
    exact .inl ⟨rfl, starts_of_launch rfl⟩
  | true =>
    refine .inr ⟨rfl, ?_⟩
    rcases settle_cases hslot hf outcome with ⟨text', hnewest, -⟩ | ⟨-, hforgotten⟩ | ⟨-, hkept⟩
    · have hversion := congrArg Prod.fst (Option.some.inj (hpending.symm.trans hnewest))
      cases hmarked.mp hversion
    · rw [hforgotten]
      rfl
    · rw [hkept, flight?_of_slot rfl, heq]

/-- When the analysis in front of a queued text settles, the text is analysed exactly if the file has not
been marked dirty since the text was last queued; otherwise nothing is. Where the slot is never forgotten
while a call waits, each request for the text queues it again. -/
theorem queued_text_starts (hrun : Relation.ReflTransGen (Step e) {} start)
    (hwait : Meanwhile e text start marked s) (ht : t ∈ s.tasks)
    (hends : (s.work e t).flight? ≠ s.flight?) :
    (Starts s (s.work e t) text ↔ marked = false) ∧ (marked = true → (s.work e t).flight? = none) ∧
      (Orderly e start → (s.poll text).2.Queued text) := by
  obtain ⟨f, hflight, hholds⟩ := hwait.holds (undecided_of_run hrun).1
  obtain ⟨hexclusive, hundecided⟩ := undecided_of_run (hrun.trans hwait.run)
  have hsettles := hholds.settles ht hends
  refine ⟨⟨fun hstarts => ?_, fun hmarked => ?_⟩, fun hmarked => ?_, fun horderly => ?_⟩
  · obtain ⟨version, hstarted, -⟩ := hstarts
    obtain ⟨hmarked, -⟩ | ⟨-, hnone⟩ := hsettles
    · exact hmarked
    · rw [hnone] at hstarted
      cases hstarted
  · exact (hsettles.resolve_right fun h => Bool.false_ne_true (hmarked.symm.trans h.1)).2
  · exact (hsettles.resolve_left fun h => Bool.false_ne_true (h.1.symm.trans hmarked)).2
  · have hqueued := hwait.first
    obtain ⟨hpublished, hnewer⟩ := hqueued.newest (horderly.polled text)
    exact hholds.poll_queues hundecided hpublished (hnewer f hflight)

/-- A queued text is asked for again after the file has been marked dirty. -/
theorem requeued_text_starts :
    let start := (({} : FileChecks Text).poll ['a']).2
    let s := ((start.poll ['b']).2.markDirty.poll ['b']).2.work .echo ⟨⟨0, 1, ['a']⟩, .parsing⟩
    Meanwhile .echo ['b'] start false s ∧ Starts s (s.work .echo ⟨⟨0, 1, ['a']⟩, .checking⟩) ['b'] := by
  intro start s
  have hrun : Relation.ReflTransGen (Step .echo) {} start := .single (.poll {} ['a'])
  have hqueued : Meanwhile .echo ['b'] start false (start.poll ['b']).2 := .queued ⟨rfl, rfl⟩
  have hagain : Meanwhile .echo ['b'] start false ((start.poll ['b']).2.markDirty.poll ['b']).2 :=
    .queuedAgain (.markDirty hqueued) ⟨rfl, rfl⟩
  have hwait : Meanwhile .echo ['b'] start false s := .work hagain _ (.head _) rfl
  exact ⟨hwait, (queued_text_starts hrun hwait (t := ⟨⟨0, 1, ['a']⟩, .checking⟩) (.head _) nofun).1.mpr rfl⟩

/-- A queued text whose file is marked dirty is not analysed when the analysis in front of it settles. -/
theorem marked_text_dropped :
    ∃ (start s : FileChecks Text) (t : Task Text), Relation.ReflTransGen (Step .echo) {} start ∧
      (∃ marked, Meanwhile .echo ['b'] start marked s) ∧ t ∈ s.tasks ∧
      (s.work .echo t).flight? ≠ s.flight? ∧ ¬Starts s (s.work .echo t) ['b'] := by
  let start := (({} : FileChecks Text).poll ['a']).2
  let s := (start.poll ['b']).2.markDirty.work .echo ⟨⟨0, 1, ['a']⟩, .parsing⟩
  refine ⟨start, s, ⟨⟨0, 1, ['a']⟩, .checking⟩, .single (.poll {} ['a']), ⟨true, ?_⟩, .head _, nofun, ?_⟩
  · have hqueued : Meanwhile .echo ['b'] start false (start.poll ['b']).2 := .queued ⟨rfl, rfl⟩
    exact .work (.markDirty hqueued) _ (.head _) rfl
  · rintro ⟨version, hstarted, -⟩
    cases hstarted

end FileChecks
end ScriptAnalyzer

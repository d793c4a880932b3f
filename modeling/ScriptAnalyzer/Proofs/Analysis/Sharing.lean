import ScriptAnalyzer.Proofs.Analysis.Closing

/-!
Calls for one text share its analysis. However many come in, and in whatever order they are served, one
analysis of the text begins after the other as long as they fail; the first that succeeds is the last, and
every call that gets a result gets its.
-/

namespace ScriptAnalyzer

variable {ρ : Type} {e : FrontEnd ρ} {text : Text}

/-- What the next step of an analysis settles it with, if it does. -/
def Task.outcome? (e : FrontEnd ρ) (t : Task ρ) : Option (Outcome ρ) :=
  match t.progress with
  | .parsing => (e.readFailure? t.flight.text).map .error
  | .checking => some (e.check t.flight.text)
  | .settled _ => none

namespace Slot

variable {slot : Slot ρ} {f : Flight}

/-- The slot of a file that has had one text and has not been closed. -/
structure Single (text : Text) (slot : Slot ρ) : Prop where
  text : slot.text = some text
  version : slot.version = 1
  closedAt : slot.closedAt = 0
  pending : slot.pending = none
  published : ∀ p, slot.published = some p → p.1 = 1
  inFlight : ∀ f, slot.inFlight = some f → f.version = 1 ∧ slot.published = none

theorem single_observe_empty (text : Text) : Single text (({} : Slot ρ).observe text) := by
  have hobserve : ({} : Slot ρ).observe text = { version := 1, text := some text } := by simp [observe]
  rw [hobserve]
  exact ⟨rfl, rfl, rfl, rfl, by rintro _ ⟨⟩, by rintro _ ⟨⟩⟩

namespace Single

variable (hs : slot.Single text)

include hs

theorem observe : slot.observe text = slot := observe_same hs.text (by rw [hs.version]; exact Nat.one_pos)

theorem publishedFor? : slot.publishedFor? 1 = slot.published.map (·.2) := by
  unfold Slot.publishedFor?
  cases hp : slot.published with
  | none => rfl
  | some p => rw [Option.filter_some, if_pos (decide_eq_true (hs.published p hp))]

theorem withState (state : FileState) : Single text { slot with state } :=
  ⟨hs.text, hs.version, hs.closedAt, hs.pending, hs.published, hs.inFlight⟩

theorem start (hnone : slot.published = none) (hf : f.version = 1) : (slot.start f).Single text := by
  refine ⟨hs.text, hs.version, hs.closedAt, hs.pending, hs.published, fun f' hf' => ?_⟩
  obtain rfl := Option.some.inj hf'
  exact ⟨hf, hnone⟩

theorem settle (hf : slot.inFlight = some f) (outcome : Outcome ρ) :
    Single text { slot.settle f outcome with pending := none } ∧
      (slot.settle f outcome).published.map (·.2) = outcome.toOption := by
  obtain ⟨hversion, hnone⟩ := hs.inFlight f hf
  have hopen : ¬f.version ≤ slot.closedAt := by simp [hversion, hs.closedAt]
  cases outcome with
  | error failure =>
    rw [settle_error hopen]
    exact ⟨⟨hs.text, hs.version, hs.closedAt, rfl, hs.published, nofun⟩, by rw [hnone]; rfl⟩
  | ok result =>
    simp only [settle_ok hopen, hnone, Option.any_none, Bool.false_eq_true, if_false]
    refine ⟨⟨hs.text, hs.version, hs.closedAt, rfl, fun p hp => ?_, nofun⟩, rfl⟩
    obtain rfl := Option.some.inj hp
    exact hversion

end Single
end Slot

namespace FileChecks

theorem latest?_of_slot {s : FileChecks ρ} {slot : Slot ρ} (hslot : s.slot = some slot) :
    s.latest? = slot.published.map (·.2) := by
  rw [latest?, hslot, Option.bind_some]

theorem work_outcome (e : FrontEnd ρ) (s : FileChecks ρ) (t : Task ρ) :
    (t.GoesOn ∧ t.outcome? e = none ∧ s.work e t = s.advance t.flight) ∨
      (∃ outcome, t.GoesOn ∧ t.outcome? e = some outcome ∧ s.work e t = s.settle t.flight outcome) ∨
      ∃ outcome, t.progress = .settled outcome ∧ t.outcome? e = none ∧
        s.work e t = s.complete t.flight outcome := by
  unfold work Task.GoesOn Task.outcome?
  cases t.progress with
  | parsing =>
    cases e.readFailure? t.flight.text with
    | none => exact .inl ⟨trivial, rfl, rfl⟩
    | some failure => exact .inr (.inl ⟨_, trivial, rfl, rfl⟩)
  | checking => exact .inr (.inl ⟨_, trivial, rfl, rfl⟩)
  | settled outcome => exact .inr (.inr ⟨outcome, rfl, rfl, rfl⟩)

end FileChecks

/-- The analyses of a file, with the outcomes of those that have settled, the first first. -/
structure Attempts (ρ : Type) where
  checks : FileChecks ρ := {}
  outcomes : List (Outcome ρ) := []

namespace Attempts

open FileChecks

variable {r r' : Attempts ρ} {t : Task ρ} {c : Caller ρ} {result : ρ}

/-- A step of the analyses of a file of which only one text is asked for. Each step of an analysis may find
another front end, so that an analysis can fail and a later one of the same text succeed. -/
inductive Step (text : Text) : Attempts ρ → Attempts ρ → Prop
  | request (s : FileChecks ρ) (outcomes : List (Outcome ρ)) :
    Step text ⟨s, outcomes⟩ ⟨s.request text, outcomes⟩
  | turn (s : FileChecks ρ) (outcomes : List (Outcome ρ)) (c : Caller ρ) (hc : c ∈ s.callers)
    (hready : c.waiting = .ready) : Step text ⟨s, outcomes⟩ ⟨s.turn c, outcomes⟩
  | poll (s : FileChecks ρ) (outcomes : List (Outcome ρ)) :
    Step text ⟨s, outcomes⟩ ⟨(s.poll text).2, outcomes⟩
  | work (s : FileChecks ρ) (outcomes : List (Outcome ρ)) (e : FrontEnd ρ) (t : Task ρ) (ht : t ∈ s.tasks) :
    Step text ⟨s, outcomes⟩ ⟨s.work e t, outcomes ++ (t.outcome? e).toList⟩

/-- One analysis has succeeded, after the others had failed, and its result is the last one. -/
structure Succeeded (r : Attempts ρ) (result : ρ) : Prop where
  last : ∃ failures : List Failure, r.outcomes = failures.map .error ++ [.ok result]
  all : r.checks.flights = r.outcomes.length
  published : r.checks.latest? = some result

structure Shared (text : Text) (r : Attempts ρ) : Prop where
  exclusive : Exclusive r.checks
  slot : ∃ slot, r.checks.slot = some slot ∧ slot.Single text
  callers : ∀ c ∈ r.checks.callers, c.version = 1
  outcomes : ∃ failures : List Failure, r.outcomes = failures.map .error ++ (r.checks.latest?.map .ok).toList
  flights : r.checks.flights = r.outcomes.length + r.checks.flight?.toList.length
  settled : ∀ t ∈ r.checks.tasks, ∀ outcome, t.progress = .settled outcome → outcome ∈ r.outcomes
  returned : ∀ c ∈ r.checks.callers, ∀ outcome, c.waiting = .returned outcome → outcome ∈ r.outcomes

/-- The file after a request has noted the text. -/
theorem shared_observe (h : r = {} ∨ Shared text r) :
    Shared text ⟨{ r.checks with slot := some (r.checks.theSlot.observe text) }, r.outcomes⟩ := by
  rcases h with rfl | hs
  · have hsingle : Slot.Single text (({} : Slot ρ).observe text) := Slot.single_observe_empty text
    have hempty : ({} : Slot ρ).observe text = { version := 1, text := some text } := by simp [Slot.observe]
    refine ⟨exclusive_empty.of_same rfl rfl ?_, ⟨_, rfl, hsingle⟩, by rintro _ ⟨⟩, ⟨[], ?_⟩, ?_, by rintro _ ⟨⟩,
      by rintro _ ⟨⟩⟩
    all_goals simp [theSlot, flight?, latest?, hempty]
  · obtain ⟨slot, hslot, hsingle⟩ := hs.slot
    have hsame : some (r.checks.theSlot.observe text) = r.checks.slot := by
      rw [theSlot_of_slot hslot, hsingle.observe, hslot]
    rw [hsame]
    exact hs

namespace Shared

variable (hs : Shared text r)

include hs

theorem theSlot : r.checks.slot = some r.checks.theSlot ∧ r.checks.theSlot.Single text := by
  obtain ⟨slot, hslot, hsingle⟩ := hs.slot
  rw [theSlot_of_slot hslot]
  exact ⟨hslot, hsingle⟩

theorem ok_mem_iff : .ok result ∈ r.outcomes ↔ r.checks.latest? = some result := by
  obtain ⟨failures, houtcomes⟩ := hs.outcomes
  simp [houtcomes]

theorem mem_of_published (h : r.checks.theSlot.publishedFor? 1 = some result) : .ok result ∈ r.outcomes := by
  obtain ⟨hslot, hsingle⟩ := hs.theSlot
  rw [hs.ok_mem_iff, latest?_of_slot hslot, ← hsingle.publishedFor?, h]

/-- Once there is a result, no analysis goes on. -/
theorem flight?_of_mem (h : .ok result ∈ r.outcomes) : r.checks.flight? = none := by
  obtain ⟨hslot, hsingle⟩ := hs.theSlot
  rw [hs.ok_mem_iff, latest?_of_slot hslot] at h
  rw [flight?_theSlot]
  refine Option.eq_none_iff_forall_ne_some.mpr fun f hf => ?_
  rw [(hsingle.inFlight f hf).2] at h
  cases h

theorem succeeded (h : .ok result ∈ r.outcomes) : Succeeded r result where
  last := by
    obtain ⟨failures, houtcomes⟩ := hs.outcomes
    rw [hs.ok_mem_iff.mp h] at houtcomes
    exact ⟨failures, houtcomes⟩
  all := by rw [hs.flights, hs.flight?_of_mem h, Option.toList_none, List.length_nil, Nat.add_zero]
  published := hs.ok_mem_iff.mp h

/-- The state of the file, and the number of its calls, do not matter. -/
theorem withSlot {s' : FileChecks ρ} {state : FileState}
    (hslot : s'.slot = some { r.checks.theSlot with state }) (htasks : s'.tasks = r.checks.tasks)
    (hflights : s'.flights = r.checks.flights) (hcallers : s'.callers = r.checks.callers) :
    Shared text ⟨s', r.outcomes⟩ := by
  obtain ⟨hslot₀, hsingle⟩ := hs.theSlot
  have hflight : s'.flight? = r.checks.flight? := by rw [flight?_of_slot hslot, flight?_theSlot]
  have hlatest : s'.latest? = r.checks.latest? := by rw [latest?_of_slot hslot, latest?_of_slot hslot₀]
  refine ⟨hs.exclusive.of_same htasks hflights hflight, ⟨_, hslot, hsingle.withState state⟩, ?_, ?_, ?_, ?_, ?_⟩
  · exact hcallers ▸ hs.callers
  · exact hlatest ▸ hs.outcomes
  · rw [hflights, hflight]
    exact hs.flights
  · exact htasks ▸ hs.settled
  · exact hcallers ▸ hs.returned

theorem setWaiting (id : Nat) {w : Waiting ρ} (hw : ∀ outcome, w = .returned outcome → outcome ∈ r.outcomes) :
    Shared text ⟨r.checks.setWaiting id w, r.outcomes⟩ := by
  refine ⟨hs.exclusive.of_same rfl rfl rfl, hs.slot, ?_, hs.outcomes, hs.flights, hs.settled, ?_⟩
  · intro c hc
    obtain ⟨c₀, hc₀, rfl⟩ := List.mem_map.mp hc
    split <;> exact hs.callers c₀ hc₀
  · intro c hc outcome hreturned
    obtain ⟨c₀, hc₀, rfl⟩ := List.mem_map.mp hc
    split at hreturned
    · exact hw outcome hreturned
    · exact hs.returned c₀ hc₀ outcome hreturned

theorem launch (hidle : r.checks.flight? = none) (hnone : r.checks.theSlot.published = none) (text' : Text) :
    Shared text ⟨r.checks.launch r.checks.theSlot 1 text', r.outcomes⟩ := by
  obtain ⟨hslot, hsingle⟩ := hs.theSlot
  refine ⟨hs.exclusive.launch hidle _ _ _, ⟨_, rfl, hsingle.start hnone rfl⟩, hs.callers, ?_, ?_, ?_,
    hs.returned⟩
  · have hlatest : (r.checks.launch r.checks.theSlot 1 text').latest? = r.checks.latest? := by
      rw [latest?_of_slot hslot]
      rfl
    exact hlatest ▸ hs.outcomes
  · have hflights := hs.flights
    rw [hidle] at hflights
    exact congrArg (· + 1) hflights
  · intro t ht outcome hsettled
    rcases List.mem_append.mp ht with ht | ht
    · exact hs.settled t ht outcome hsettled
    · rw [List.mem_singleton.mp ht] at hsettled
      cases hsettled

theorem turn (hc : c ∈ r.checks.callers) : Shared text ⟨r.checks.turn c, r.outcomes⟩ := by
  obtain ⟨hslot, hsingle⟩ := hs.theSlot
  have hversion := hs.callers c hc
  simp only [FileChecks.turn]
  split
  case h_1 result hresult =>
    refine hs.setWaiting c.id fun outcome hw => ?_
    obtain rfl := Waiting.returned.inj hw
    exact hs.mem_of_published (hversion ▸ hresult)
  case h_2 => exact hs.setWaiting c.id fun outcome hw => by split at hw <;> cases hw
  case h_3 hresult hidle =>
    rw [hversion, hsingle.publishedFor?, Option.map_eq_none_iff] at hresult
    rw [← flight?_theSlot] at hidle
    rw [hversion]
    exact (hs.launch hidle hresult c.text).setWaiting c.id (by rintro _ ⟨⟩)

theorem advance (ht : t ∈ r.checks.tasks) (hgoes : t.GoesOn) :
    Shared text ⟨r.checks.advance t.flight, r.outcomes⟩ := by
  obtain ⟨hslot, hsingle⟩ := hs.theSlot
  obtain ⟨state, hadvance⟩ := r.checks.theSlot.advance_eq t.flight
  have hslot' : (r.checks.advance t.flight).slot = some { r.checks.theSlot with state } := by
    rw [FileChecks.advance, hslot, Option.map_some, hadvance]
  have hflight : (r.checks.advance t.flight).flight? = r.checks.flight? := by
    rw [flight?_of_slot hslot', flight?_theSlot]
  have hlatest : (r.checks.advance t.flight).latest? = r.checks.latest? := by
    rw [latest?_of_slot hslot', latest?_of_slot hslot]
  refine ⟨hs.exclusive.advance ht hgoes, ⟨_, hslot', hsingle.withState state⟩, hs.callers, ?_, ?_, ?_,
    hs.returned⟩
  · exact hlatest ▸ hs.outcomes
  · rw [hflight]
    exact hs.flights
  · intro t' ht' outcome hsettled
    rcases hs.exclusive.mem_setProgress ht ht' with rfl | ⟨ht', -⟩
    · cases hsettled
    · exact hs.settled t' ht' outcome hsettled

theorem settle (ht : t ∈ r.checks.tasks) (hgoes : t.GoesOn) (outcome : Outcome ρ) :
    Shared text ⟨r.checks.settle t.flight outcome, r.outcomes ++ [outcome]⟩ := by
  obtain ⟨hslot, hsingle⟩ := hs.theSlot
  obtain ⟨-, hf⟩ := theSlot_inFlight hs.exclusive ht hgoes
  obtain ⟨hsettled, hpublished⟩ := hsingle.settle hf outcome
  obtain ⟨state, published, failure, heq⟩ := r.checks.theSlot.settle_eq t.flight outcome
  have hidle : (r.checks.theSlot.settle t.flight outcome).inFlight = none := by rw [heq]
  rcases settle_cases hslot hf outcome with ⟨text', hpending, -⟩ | ⟨hunknown, -⟩ | ⟨-, hkept⟩
  · rw [hsingle.pending] at hpending
    cases hpending
  · rw [hsingle.text] at hunknown
    cases hunknown
  rw [hkept]
  refine ⟨hs.exclusive.settled ht hgoes outcome _ hidle, ⟨_, rfl, hsettled⟩, hs.callers, ?_, ?_, ?_, ?_⟩
  · -- the analysis has gone on until now, so the ones before it have failed
    obtain ⟨failures, houtcomes⟩ := hs.outcomes
    rw [latest?_of_slot hslot, (hsingle.inFlight _ hf).2] at houtcomes
    rw [latest?_of_slot rfl, hpublished, houtcomes]
    cases outcome with
    | error failure => exact ⟨failures ++ [failure], by simp [Except.toOption]⟩
    | ok result => exact ⟨failures, by simp [Except.toOption]⟩
  · have hflights := hs.flights
    rw [flight?_theSlot, hf] at hflights
    rw [flight?_of_slot rfl, hidle]
    simpa [setProgress] using hflights
  · intro t' ht' outcome' hsettled'
    rcases hs.exclusive.mem_setProgress ht ht' with rfl | ⟨ht', -⟩
    · obtain rfl := Progress.settled.inj hsettled'
      exact List.mem_append_right _ (List.mem_singleton_self _)
    · exact List.mem_append_left _ (hs.settled t' ht' outcome' hsettled')
  · exact fun c hc outcome' hreturned => List.mem_append_left _ (hs.returned c hc outcome' hreturned)

theorem complete {outcome : Outcome ρ} (ht : t ∈ r.checks.tasks) (hprogress : t.progress = .settled outcome) :
    Shared text ⟨r.checks.complete t.flight outcome, r.outcomes⟩ := by
  refine ⟨hs.exclusive.complete ht hprogress, hs.slot, ?_, hs.outcomes, hs.flights,
    fun t' ht' => hs.settled t' (List.mem_filter.mp ht').1, ?_⟩
  · intro c hc
    obtain ⟨c₀, hc₀, rfl⟩ := List.mem_map.mp hc
    have hversion := hs.callers c₀ hc₀
    split
    · split <;> exact hversion
    · split <;> exact hversion
    · exact hversion
  · intro c hc outcome' hreturned
    obtain ⟨c₀, hc₀, rfl⟩ := List.mem_map.mp hc
    have hwas := hs.returned c₀ hc₀ outcome'
    split at hreturned
    · split at hreturned
      · obtain rfl := Waiting.returned.inj hreturned
        exact hs.settled t ht outcome hprogress
      · exact hwas hreturned
    · split at hreturned
      · cases hreturned
      · exact hwas hreturned
    · exact hwas hreturned

theorem work (e : FrontEnd ρ) (ht : t ∈ r.checks.tasks) :
    Shared text ⟨r.checks.work e t, r.outcomes ++ (t.outcome? e).toList⟩ := by
  obtain ⟨hgoes, hnone, hwork⟩ | ⟨outcome, hgoes, hsome, hwork⟩ | ⟨outcome, hprogress, hnone, hwork⟩ :=
    work_outcome e r.checks t
  · rw [hwork, hnone, Option.toList_none, List.append_nil]
    exact hs.advance ht hgoes
  · rw [hwork, hsome, Option.toList_some]
    exact hs.settle ht hgoes outcome
  · rw [hwork, hnone, Option.toList_none, List.append_nil]
    exact hs.complete ht hprogress

/-- The next step of an analysis settles nothing once there is a result. -/
theorem outcome?_of_mem (h : .ok result ∈ r.outcomes) (e : FrontEnd ρ) (ht : t ∈ r.checks.tasks) :
    t.outcome? e = none := by
  have hidle := hs.exclusive.idle (hs.flight?_of_mem h) t ht
  obtain ⟨hgoes, -, -⟩ | ⟨outcome, hgoes, -, -⟩ | ⟨outcome, -, hnone, -⟩ := work_outcome e r.checks t
  · exact absurd hgoes hidle
  · exact absurd hgoes hidle
  · exact hnone

end Shared

theorem shared_request (h : r = {} ∨ Shared text r) : Shared text ⟨r.checks.request text, r.outcomes⟩ := by
  have hs := shared_observe h
  have hversion : (r.checks.theSlot.observe text).version = 1 := hs.theSlot.2.version
  refine ⟨hs.exclusive.of_same rfl rfl rfl, hs.slot, ?_, hs.outcomes, hs.flights, hs.settled, ?_⟩
  · intro c hc
    rcases List.mem_append.mp hc with hc | hc
    · exact hs.callers c hc
    · rw [List.mem_singleton.mp hc]
      exact hversion
  · intro c hc outcome hreturned
    rcases List.mem_append.mp hc with hc | hc
    · exact hs.returned c hc outcome hreturned
    · rw [List.mem_singleton.mp hc] at hreturned
      cases hreturned

theorem shared_poll (h : r = {} ∨ Shared text r) : Shared text ⟨(r.checks.poll text).2, r.outcomes⟩ ∧
    ∀ result, (r.checks.poll text).1 = .ready result → .ok result ∈ r.outcomes := by
  have hs := shared_observe h
  have hsingle : (r.checks.theSlot.observe text).Single text := hs.theSlot.2
  have hversion := hsingle.version
  simp only [FileChecks.poll]
  split
  case h_1 result hresult =>
    refine ⟨hs, fun result' hanswer => ?_⟩
    obtain rfl := Readiness.ready.inj hanswer
    exact hs.mem_of_published (hversion ▸ hresult)
  case h_2 => exact ⟨hs.withSlot rfl rfl rfl rfl, by rintro _ ⟨⟩⟩
  case h_3 f _ _ hf =>
    rw [if_pos ((hsingle.inFlight f hf).1.trans hversion.symm)]
    exact ⟨hs, by rintro _ ⟨⟩⟩
  case h_4 hresult _ hidle =>
    rw [hversion] at hresult ⊢
    rw [hsingle.publishedFor?, Option.map_eq_none_iff] at hresult
    exact ⟨hs.launch hidle hresult text, by rintro _ ⟨⟩⟩

theorem Step.shared (h : r = {} ∨ Shared text r) (hstep : Step text r r') : Shared text r' := by
  cases hstep with
  | request s outcomes => exact shared_request h
  | turn s outcomes c hc hready =>
    obtain hempty | hs := h
    · rw [show s = {} from congrArg checks hempty] at hc
      cases hc
    · exact hs.turn hc
  | poll s outcomes => exact (shared_poll h).1
  | work s outcomes e t ht =>
    obtain hempty | hs := h
    · rw [show s = {} from congrArg checks hempty] at ht
      cases ht
    · exact hs.work e ht

theorem shared_of_run (hrun : Relation.ReflTransGen (Step text) {} r) : r = {} ∨ Shared text r := by
  -- the slot exists from the first call on, and nothing closes it
  induction hrun with
  | refl => exact .inl rfl
  | tail _ hstep ih => exact .inr (hstep.shared ih)

theorem Step.outcomes_of_mem (hs : Shared text r) (h : .ok result ∈ r.outcomes) (hstep : Step text r r') :
    r'.outcomes = r.outcomes := by
  cases hstep with
  | request s outcomes => rfl
  | turn s outcomes c hc hready => rfl
  | poll s outcomes => rfl
  | work s outcomes e t ht =>
    have hnone : t.outcome? e = none := hs.outcome?_of_mem h e ht
    simp [hnone]

/-- Once an analysis has succeeded, none begins any more. -/
theorem Shared.ends (hs : Shared text r) (h : .ok result ∈ r.outcomes)
    (hrun : Relation.ReflTransGen (Step text) r r') : Shared text r' ∧ r'.outcomes = r.outcomes := by
  induction hrun with
  | refl => exact ⟨hs, rfl⟩
  | tail _ hstep ih =>
    obtain ⟨hs', hsame⟩ := ih
    exact ⟨hstep.shared (.inr hs'), (hstep.outcomes_of_mem hs' (hsame ▸ h)).trans hsame⟩

theorem shared_of_mem (h : r = {} ∨ Shared text r) (hmem : .ok result ∈ r.outcomes) : Shared text r := by
  obtain rfl | hs := h
  · cases hmem
  · exact hs

theorem Succeeded.flights_of_head? {result' : ρ} (hs : Succeeded r result)
    (h : r.outcomes.head? = some (.ok result')) : r.checks.flights = 1 := by
  obtain ⟨failures, houtcomes⟩ := hs.last
  rw [hs.all, houtcomes]
  rw [houtcomes] at h
  cases failures with
  | nil => rfl
  | cons failure failures => cases h

/-- Calls for one text share its analysis: the first analysis that succeeds is the last that begins, and
its result is the one that is published, and the one of every call that gets a result. -/
theorem calls_share_one_result (hrun : Relation.ReflTransGen (Step text) {} r) :
    (∀ result, .ok result ∈ r.outcomes → ∀ r', Relation.ReflTransGen (Step text) r r' →
      r'.Succeeded result ∧ r'.checks.flights = r.checks.flights) ∧
    (∀ result, r.outcomes.head? = some (.ok result) → r.checks.flights = 1) ∧
    (∀ c ∈ r.checks.callers, ∀ result, c.waiting = .returned (.ok result) → r.Succeeded result) ∧
    ∀ result, (r.checks.poll text).1 = .ready result → r.Succeeded result := by
  have hshared := shared_of_run hrun
  have hsucceeded (result : ρ) (hmem : .ok result ∈ r.outcomes) : r.Succeeded result :=
    (shared_of_mem hshared hmem).succeeded hmem
  refine ⟨fun result hmem r' hlater => ?_, fun result hfirst => ?_, fun c hc result hreturned => ?_,
    fun result hanswer => ?_⟩
  · obtain ⟨hs, hsame⟩ := (shared_of_mem hshared hmem).ends hmem hlater
    have hlast := hs.succeeded (hsame ▸ hmem)
    exact ⟨hlast, by rw [hlast.all, hsame, (hsucceeded result hmem).all]⟩
  · exact (hsucceeded result (List.mem_of_head? hfirst)).flights_of_head? hfirst
  · obtain rfl | hs := hshared
    · cases hc
    · exact hs.succeeded (hs.returned c hc _ hreturned)
  · exact hsucceeded result ((shared_poll hshared).2 result hanswer)

/-- The first analysis fails, and the second one begins before the first call has been told. -/
theorem second_analysis_shared :
    let failing : FrontEnd Text := { readFailure? := fun _ => some (.crashed none), check := .ok }
    let s₁ := (({} : FileChecks Text).request ['a']).turn ⟨0, 1, ['a'], .ready⟩
    let s₂ := ((s₁.work failing ⟨⟨0, 1, ['a']⟩, .parsing⟩).request ['a']).turn ⟨1, 1, ['a'], .ready⟩
    let s₃ := (s₂.poll ['a']).2.work .echo ⟨⟨1, 1, ['a']⟩, .parsing⟩
    let r : Attempts Text := ⟨s₃.work .echo ⟨⟨1, 1, ['a']⟩, .checking⟩, [.error (.crashed none), .ok ['a']]⟩
    r.Succeeded ['a'] ∧ r.checks.flights = 2 := by
  intro failing s₁ s₂ s₃ r
  have hfirst : Relation.ReflTransGen (Step ['a']) {} ⟨s₁, []⟩ :=
    (Relation.ReflTransGen.single (.request {} [])).tail (.turn _ [] _ (.head _) rfl)
  have hsecond : Relation.ReflTransGen (Step ['a']) ⟨s₁, []⟩ ⟨s₂, [.error (.crashed none)]⟩ :=
    ((Relation.ReflTransGen.single (.work s₁ [] failing _ (.head _))).tail (.request _ _)).tail
      (.turn _ _ _ (.tail _ (.head _)) rfl)
  have hlast : Relation.ReflTransGen (Step ['a']) ⟨s₂, [.error (.crashed none)]⟩ r :=
    ((Relation.ReflTransGen.single (.poll s₂ _)).tail (.work _ _ .echo _ (.tail _ (.head _)))).tail
      (.work s₃ _ .echo _ (.tail _ (.head _)))
  have hshared := calls_share_one_result ((hfirst.trans hsecond).trans hlast)
  obtain ⟨hsucceeded, -⟩ := hshared.1 ['a'] (.tail _ (.head _)) r .refl
  exact ⟨hsucceeded, hsucceeded.all⟩

end Attempts
end ScriptAnalyzer

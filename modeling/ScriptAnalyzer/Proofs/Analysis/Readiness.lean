import ScriptAnalyzer.Proofs.Analysis.Closing

/-!
The state that is reported for a file. With no analysis going on, it is `ready` exactly if the last result
belongs to the newest text. This takes that no older text is analysed once the newest has its result, and
that the call for the newest text has taken its turn.
-/

namespace ScriptAnalyzer

variable {ρ : Type} {e : FrontEnd ρ} {history : Nat → Text} {calls : List (Nat × Text)}

namespace Slot

variable {slot : Slot ρ} {text : Text} {f : Flight} {outcome : Outcome ρ}

/-- The last result belongs to the newest version. -/
def UpToDate (slot : Slot ρ) : Prop := ∃ result, slot.published = some (slot.version, result)

theorem publishedFor?_of_upToDate (h : slot.UpToDate) :
    ∃ result, slot.publishedFor? slot.version = some result := by
  obtain ⟨result, hpublished⟩ := h
  exact ⟨result, by simp [publishedFor?, hpublished]⟩

theorem not_upToDate_of_newer {slot' : Slot ρ} (hkeeps : slot.Keeps e history)
    (hpublished : slot'.published = slot.published) (hversion : slot'.version = slot.version + 1) :
    ¬slot'.UpToDate := by
  rintro ⟨result, hnewest⟩
  rw [hpublished, hversion] at hnewest
  exact Nat.not_succ_le_self _ (hkeeps.published _ hnewest).1

theorem observe_cases (slot : Slot ρ) (text : Text) : slot.observe text = slot ∨
    slot.observe text = { slot with version := slot.version + 1, text := some text } := by
  unfold observe
  split
  · exact .inl rfl
  · exact .inr rfl

theorem markDirty_not_ready (slot : Slot ρ) : slot.markDirty.state ≠ .ready := by
  simp only [markDirty]
  split
  case isTrue => simp
  case isFalse hother => exact fun hready => hother (.inl hready)

/-- An analysis that leaves the state `ready` has left the result of the newest version. -/
theorem Keeps.settle_ready (hkeeps : slot.Keeps e history) (h : (slot.settle f outcome).state = .ready) :
    (slot.settle f outcome).UpToDate := by
  by_cases hclosed : f.version ≤ slot.closedAt
  · simp [settle_closed hclosed] at h
  cases outcome with
  | error failure =>
    rw [settle_error hclosed] at h
    dsimp only at h
    split at h <;> cases h
  | ok result =>
    rw [settle_ok hclosed] at h ⊢
    dsimp only at h
    split at h
    case isFalse => cases h
    case isTrue hcurrent =>
      have hnewest : ¬slot.published.any (f.version < ·.1) := by
        rw [Option.any_eq_true]
        rintro ⟨p, hp, hlater⟩
        rw [decide_eq_true_eq, ← hcurrent] at hlater
        exact Nat.not_le_of_lt hlater (hkeeps.published p hp).1
      refine ⟨result, ?_⟩
      dsimp only
      rw [if_neg hnewest, hcurrent]

/-- The newest version gets its result from its own analysis, which leaves the state `ready`. -/
theorem settle_upToDate (h : (slot.settle f outcome).UpToDate) :
    slot.UpToDate ∨ f.version = slot.version ∧ (slot.settle f outcome).state = .ready := by
  obtain ⟨result, hpublished⟩ := h
  by_cases hclosed : f.version ≤ slot.closedAt
  · rw [settle_closed hclosed] at hpublished
    exact .inl ⟨result, hpublished⟩
  cases outcome with
  | error failure =>
    rw [settle_error hclosed] at hpublished
    exact .inl ⟨result, hpublished⟩
  | ok result' =>
    rw [settle_ok hclosed] at hpublished ⊢
    dsimp only at hpublished
    split at hpublished
    · exact .inl ⟨result, hpublished⟩
    · have hcurrent : f.version = slot.version := congrArg Prod.fst (Option.some.inj hpublished)
      exact .inr ⟨hcurrent, if_pos hcurrent.symm⟩

theorem settle_older (h : slot.UpToDate) (holder : f.version < slot.version) (outcome : Outcome ρ) :
    (slot.settle f outcome).UpToDate ∧ (slot.settle f outcome).state = .unanalyzed := by
  obtain ⟨result, hpublished⟩ := h
  by_cases hclosed : f.version ≤ slot.closedAt
  · rw [settle_closed hclosed]
    exact ⟨⟨result, hpublished⟩, rfl⟩
  cases outcome with
  | error failure =>
    rw [settle_error hclosed]
    exact ⟨⟨result, hpublished⟩, if_neg (Nat.ne_of_gt holder)⟩
  | ok result' =>
    have hlater : slot.published.any (f.version < ·.1) := by simpa [hpublished] using holder
    rw [settle_ok hclosed, if_pos hlater]
    exact ⟨⟨result, hpublished⟩, if_neg (Nat.ne_of_gt holder)⟩

end Slot

namespace FileChecks

variable {s s' : FileChecks ρ} {slot : Slot ρ} {t : Task ρ} {outcome : Outcome ρ}

/-- A call for the newest text has come in and has yet to take its turn. -/
def Announced (s : FileChecks ρ) : Prop :=
  ¬s.theSlot.UpToDate ∧ ∃ c ∈ s.callers, c.waiting = .ready ∧ c.version = s.theSlot.version

/-- An older text is analysed although the newest has its result. -/
def Late (s : FileChecks ρ) : Prop :=
  s.theSlot.UpToDate ∧ ∃ f, s.flight? = some f ∧ f.version ≠ s.theSlot.version

structure Reports (s : FileChecks ρ) : Prop where
  ready : s.theSlot.state = .ready → s.theSlot.UpToDate ∨ s.Announced
  flying : ∀ f, s.theSlot.inFlight = some f → s.theSlot.state ≠ .ready
  stale : s.theSlot.UpToDate → ∀ f, s.theSlot.inFlight = some f → f.version ≠ s.theSlot.version
  pending : s.theSlot.UpToDate → s.theSlot.pending = none

/-- A newest version that has its result is reported as `ready`. -/
def Shows (s : FileChecks ρ) : Prop := s.theSlot.UpToDate → s.theSlot.state = .ready

theorem state_theSlot (s : FileChecks ρ) : s.state = s.theSlot.state := by
  unfold state theSlot
  cases s.slot <;> rfl

theorem reports_of_unready (hnot : ¬s.theSlot.UpToDate) (hstate : s.theSlot.state ≠ .ready) : Reports s where
  ready := fun hready => absurd hready hstate
  flying := fun _ _ => hstate
  stale := fun h => absurd h hnot
  pending := fun h => absurd h hnot

theorem not_upToDate_of_unknown (hslot : s.slot = none) : ¬s.theSlot.UpToDate := by
  rintro ⟨result, hpublished⟩
  rw [theSlot, hslot] at hpublished
  cases hpublished

theorem reports_of_unknown (hslot : s.slot = none) : Reports s :=
  reports_of_unready (not_upToDate_of_unknown hslot) (by rw [theSlot, hslot]; simp)

/-- Closed or forgotten, a file has no result. -/
theorem close_unready (s : FileChecks ρ) :
    ¬s.close.theSlot.UpToDate ∧ s.close.theSlot.state ≠ .ready := by
  cases hclosed : s.close.slot with
  | none => exact ⟨not_upToDate_of_unknown hclosed, by rw [theSlot, hclosed]; simp⟩
  | some slot' =>
    obtain ⟨slot, hslot, hclose⟩ := Option.bind_eq_some_iff.mp hclosed
    obtain ⟨f, hf, rfl⟩ := Option.map_eq_some_iff.mp hclose
    rw [theSlot_of_slot hclosed]
    exact ⟨by rintro ⟨result, ⟨⟩⟩, by simp⟩

/-- Where no result answers a poll, the newest version has none, and its analysis is not over. -/
theorem poll_unready (hflying : ∀ f, s.theSlot.inFlight = some f → s.theSlot.state ≠ .ready) (text : Text)
    (hnone : (s.theSlot.observe text).publishedFor? (s.theSlot.observe text).version = none) :
    ¬(s.poll text).2.theSlot.UpToDate ∧ (s.poll text).2.theSlot.state ≠ .ready := by
  have hnot : ¬(s.theSlot.observe text).UpToDate := by
    intro h
    obtain ⟨result, hresult⟩ := Slot.publishedFor?_of_upToDate h
    rw [hnone] at hresult
    cases hresult
  have hstate : (s.theSlot.observe text).state = s.theSlot.state := by
    rcases s.theSlot.observe_cases text with h | h <;> rw [h]
  simp only [poll, hnone]
  split
  case h_1 h => cases h
  case h_2 => exact ⟨hnot, by simp [theSlot]⟩
  case h_3 f _ _ hf =>
    rw [Slot.observe_inFlight] at hf
    have hunready := hflying f hf
    rw [← hstate] at hunready
    by_cases hcurrent : f.version = (s.theSlot.observe text).version
    · simp only [if_pos hcurrent]
      exact ⟨hnot, hunready⟩
    · simp only [if_neg hcurrent]
      exact ⟨hnot, hunready⟩
  case h_4 => exact ⟨hnot, by simp [launch, theSlot, Slot.start]⟩

theorem poll_of_result {text : Text} (hkeeps : s.theSlot.Keeps e history) {result : ρ}
    (h : (s.theSlot.observe text).publishedFor? (s.theSlot.observe text).version = some result) :
    (s.poll text).2 = { s with slot := some s.theSlot } := by
  have hobserve : s.theSlot.observe text = s.theSlot := by
    refine (s.theSlot.observe_cases text).resolve_right fun hnew => ?_
    have hnot : ¬(s.theSlot.observe text).UpToDate :=
      Slot.not_upToDate_of_newer hkeeps (by rw [hnew]) (by rw [hnew])
    exact hnot ⟨result, Slot.publishedFor?_eq h⟩
  rw [hobserve] at h
  simp [poll, hobserve, h]

namespace Reports

variable (hs : Reports s)

include hs

theorem of_callers (hslot : s'.theSlot = s.theSlot)
    (hcallers : ∀ c ∈ s.callers, c.waiting = .ready → c.version = s.theSlot.version → ¬s.theSlot.UpToDate →
      c ∈ s'.callers) : Reports s' := by
  have hannounced (h : s.Announced) : s'.Announced := by
    obtain ⟨hnot, c, hc, hready, hversion⟩ := h
    rw [Announced, hslot]
    exact ⟨hnot, c, hcallers c hc hready hversion hnot, hready, hversion⟩
  refine ⟨?_, ?_, ?_, ?_⟩
  all_goals rw [hslot]
  · exact fun hready => (hs.ready hready).imp_right hannounced
  · exact hs.flying
  · exact hs.stale
  · exact hs.pending

theorem request (hkeeps : s.theSlot.Keeps e history) (text : Text) : Reports (s.request text) := by
  have hslot : (s.request text).theSlot = s.theSlot.observe text := rfl
  rcases s.theSlot.observe_cases text with h | h
  · exact hs.of_callers (hslot.trans h) fun c hc _ _ _ => List.mem_append_left _ hc
  have hnot : ¬(s.request text).theSlot.UpToDate :=
    Slot.not_upToDate_of_newer hkeeps (by rw [hslot, h]) (by rw [hslot, h])
  refine ⟨fun _ => .inr ⟨hnot, ?_⟩, ?_, fun h => absurd h hnot, fun h => absurd h hnot⟩
  · exact ⟨_, List.mem_append_right _ (List.mem_singleton_self _), rfl, rfl⟩
  · rw [hslot, h]
    exact hs.flying

theorem turn (hcoherent : Coherent e history s) {c : Caller ρ} (hc : c ∈ s.callers) : Reports (s.turn c) := by
  have hother (w : Waiting ρ) (c' : Caller ρ) (hc' : c' ∈ s.callers) (hid : c'.id ≠ c.id) :
      c' ∈ (s.setWaiting c.id w).callers := List.mem_map.mpr ⟨c', hc', by rw [if_neg hid]⟩
  simp only [FileChecks.turn]
  split
  case h_1 result hresult =>
    refine hs.of_callers rfl fun c' hc' _ hversion hnot => hother _ c' hc' fun hid => hnot ?_
    rw [hcoherent.caller_unique hc' hc hid] at hversion
    exact ⟨result, hversion ▸ Slot.publishedFor?_eq hresult⟩
  case h_2 f _ hf =>
    have hunready := hs.flying f hf
    refine ⟨fun hready => absurd hready hunready, hs.flying, hs.stale, hs.pending⟩
  case h_3 hnone hidle =>
    refine ⟨fun hready => ?_, fun f hf => ?_, fun h f hf => ?_, hs.pending⟩
    · cases hready
    · simp [setWaiting, launch, theSlot, Slot.start]
    · obtain rfl := Option.some.inj hf
      rintro hversion
      obtain ⟨result, hresult⟩ : ∃ result, s.theSlot.publishedFor? s.theSlot.version = some result :=
        Slot.publishedFor?_of_upToDate h
      have hsame : c.version = s.theSlot.version := hversion
      rw [hsame, hresult] at hnone
      cases hnone

theorem poll (hkeeps : s.theSlot.Keeps e history) (text : Text) : Reports (s.poll text).2 := by
  cases h : (s.theSlot.observe text).publishedFor? (s.theSlot.observe text).version with
  | some result =>
    rw [poll_of_result hkeeps h]
    exact hs.of_callers rfl fun c hc _ _ _ => hc
  | none =>
    obtain ⟨hnot, hstate⟩ := poll_unready hs.flying text h
    exact reports_of_unready hnot hstate

theorem advance (hexclusive : Exclusive s) (ht : t ∈ s.tasks) (hgoes : t.GoesOn) :
    Reports (s.advance t.flight) := by
  obtain ⟨hslot, hf⟩ := theSlot_inFlight hexclusive ht hgoes
  have hslot' : (s.advance t.flight).theSlot = s.theSlot.advance t.flight := by
    apply theSlot_of_slot
    simp [FileChecks.advance, hslot]
  have hstate : (s.theSlot.advance t.flight).state ≠ .ready := by
    unfold Slot.advance
    split
    · simp
    · exact hs.flying _ hf
  obtain ⟨state, hadvance⟩ := s.theSlot.advance_eq t.flight
  refine ⟨fun hready => absurd hready (hslot' ▸ hstate), fun _ _ => hslot' ▸ hstate, ?_, ?_⟩
  · rw [hslot', hadvance]
    exact hs.stale
  · rw [hslot', hadvance]
    exact hs.pending

theorem settle (hcoherent : Coherent e history s) (hsince : Since e calls s) (ht : t ∈ s.tasks)
    (hgoes : t.GoesOn) (outcome : Outcome ρ) : Reports (s.settle t.flight outcome) := by
  obtain ⟨hslot, hf⟩ := theSlot_inFlight hcoherent.exclusive ht hgoes
  obtain ⟨state, published, failure, heq⟩ := s.theSlot.settle_eq t.flight outcome
  have hready (h : (s.theSlot.settle t.flight outcome).state = .ready) :
      (s.theSlot.settle t.flight outcome).UpToDate := hcoherent.theSlot.settle_ready h
  rcases settle_cases hslot hf outcome with ⟨text, hpending, hlaunch⟩ | ⟨-, hforgotten⟩ | ⟨-, hkept⟩
  · obtain ⟨-, f, hf', hstale⟩ := hsince.slot.pending _ hpending
    obtain rfl := Option.some.inj (hf.symm.trans hf')
    have hnot : ¬(s.theSlot.settle t.flight outcome).UpToDate := by
      intro h
      have hnone := hs.pending ((Slot.settle_upToDate h).resolve_right fun hnewest => hstale hnewest.1)
      rw [hpending] at hnone
      cases hnone
    rw [hlaunch]
    exact reports_of_unready hnot (by simp [launch, theSlot, Slot.start])
  · exact reports_of_unknown (by rw [hforgotten])
  · have hslot' : (s.settle t.flight outcome).theSlot =
        { s.theSlot.settle t.flight outcome with pending := none } := theSlot_of_slot (by rw [hkept])
    rw [heq] at hready
    refine ⟨?_, ?_, ?_, ?_⟩
    all_goals rw [hslot', heq]
    · exact fun h => .inl (hready h)
    · rintro f ⟨⟩
    · rintro _ f ⟨⟩
    · exact fun _ => rfl

theorem complete (f : Flight) (outcome : Outcome ρ) : Reports (s.complete f outcome) := by
  refine hs.of_callers rfl fun c hc hready _ _ => List.mem_map.mpr ⟨c, hc, ?_⟩
  simp only [hready]

theorem markDirty (hkeeps : s.theSlot.Keeps e history) : Reports s.markDirty := by
  cases hslot : s.slot with
  | none =>
    rw [markDirty_of_unknown hslot]
    exact hs
  | some slot =>
    have hmarked : s.markDirty.theSlot = s.theSlot.markDirty := by
      simp [FileChecks.markDirty, theSlot, hslot]
    refine reports_of_unready ?_ ?_
    all_goals rw [hmarked]
    · exact Slot.not_upToDate_of_newer hkeeps rfl rfl
    · exact s.theSlot.markDirty_not_ready

end Reports

theorem Reports.step {r r' : Recorded ρ} (hcoherent : Coherent e history r.checks)
    (hsince : Since e r.calls r.checks) (hs : Reports r.checks) (hstep : Recorded.Step e r r') :
    Reports r'.checks := by
  have hkeeps := hcoherent.theSlot
  cases hstep with
  | request s calls text => exact hs.request hkeeps text
  | turn s calls c hc hready => exact hs.turn hcoherent hc
  | poll s calls text => exact hs.poll hkeeps text
  | markDirty s calls => exact hs.markDirty hkeeps
  | close s calls => exact reports_of_unready s.close_unready.1 s.close_unready.2
  | work s calls t ht =>
    obtain ⟨hgoes, -, hwork⟩ | ⟨outcome, hgoes, -, hwork⟩ | ⟨outcome, -, hwork⟩ := work_cases e s t
    · exact hwork ▸ hs.advance hcoherent.exclusive ht hgoes
    · exact hwork ▸ hs.settle hcoherent hsince ht hgoes outcome
    · exact hwork ▸ hs.complete t.flight outcome

theorem Shows.settle (hexclusive : Exclusive s) (hs : Reports s) (hshows : Shows s) (ht : t ∈ s.tasks)
    (hgoes : t.GoesOn) (hnewest : (s.settle t.flight outcome).theSlot.UpToDate)
    (hidle : (s.settle t.flight outcome).flight? = none) :
    (s.settle t.flight outcome).theSlot.state = .ready := by
  obtain ⟨hslot, hf⟩ := theSlot_inFlight hexclusive ht hgoes
  have hnot : ¬s.theSlot.UpToDate := fun h => hs.flying _ hf (hshows h)
  rcases settle_cases hslot hf outcome with ⟨text, -, hlaunch⟩ | ⟨-, hforgotten⟩ | ⟨-, hkept⟩
  · rw [hlaunch] at hidle
    cases hidle
  · exact absurd hnewest (not_upToDate_of_unknown (by rw [hforgotten]))
  · have hslot' : (s.settle t.flight outcome).theSlot =
        { s.theSlot.settle t.flight outcome with pending := none } := theSlot_of_slot (by rw [hkept])
    rw [hslot'] at hnewest ⊢
    exact ((Slot.settle_upToDate hnewest).resolve_left hnot).2

theorem Shows.step {r r' : Recorded ρ} (hcoherent : Coherent e history r.checks) (hs : Reports r.checks)
    (hshows : Shows r.checks) (hstep : Recorded.Step e r r') (hnewest : r'.checks.theSlot.UpToDate)
    (hidle : r'.checks.flight? = none) : r'.checks.theSlot.state = .ready := by
  have hkeeps := hcoherent.theSlot
  cases hstep with
  | request s calls text =>
    have hslot : (s.request text).theSlot = s.theSlot.observe text := rfl
    dsimp only at hnewest hidle ⊢
    rw [hslot] at hnewest ⊢
    rcases s.theSlot.observe_cases text with h | h
    · rw [h] at hnewest ⊢
      exact hshows hnewest
    · exact absurd hnewest (Slot.not_upToDate_of_newer hkeeps (by rw [h]) (by rw [h]))
  | turn s calls c hc hready =>
    simp only [FileChecks.turn] at hnewest hidle ⊢
    split at hnewest
    case h_1 => exact hshows hnewest
    case h_2 => exact hshows hnewest
    case h_3 hnone hlaunch =>
      simp only [hnone, hlaunch] at hidle
      cases hidle
  | poll s calls text =>
    dsimp only at hnewest hidle ⊢
    cases h : (s.theSlot.observe text).publishedFor? (s.theSlot.observe text).version with
    | some result =>
      rw [poll_of_result hkeeps h] at hnewest ⊢
      exact hshows hnewest
    | none => exact absurd hnewest (poll_unready hs.flying text h).1
  | markDirty s calls =>
    dsimp only at hnewest ⊢
    cases hslot : s.slot with
    | none =>
      rw [markDirty_of_unknown hslot] at hnewest ⊢
      exact hshows hnewest
    | some slot =>
      have hmarked : s.markDirty.theSlot = s.theSlot.markDirty := by
        simp [FileChecks.markDirty, theSlot, hslot]
      rw [hmarked] at hnewest
      exact absurd hnewest (Slot.not_upToDate_of_newer hkeeps rfl rfl)
  | close s calls => exact absurd hnewest s.close_unready.1
  | work s calls t ht =>
    dsimp only at hnewest hidle ⊢
    -- a task that goes on owns the flight, so only one that settles it leaves the file idle
    have hexclusive := hcoherent.exclusive
    obtain ⟨hgoes, -, hwork⟩ | ⟨outcome, hgoes, -, hwork⟩ | ⟨outcome, -, hwork⟩ := work_cases e s t
    all_goals rw [hwork] at hnewest hidle ⊢
    · have hlost := (hexclusive.advance ht hgoes).idle hidle { t with progress := .checking }
      exact (hlost (List.mem_map.mpr ⟨t, ht, by rw [if_pos rfl]⟩) trivial).elim
    · exact Shows.settle hexclusive hs hshows ht hgoes hnewest hidle
    · exact hshows hnewest

theorem late_settle (hcoherent : Coherent e history s) (hsince : Since e calls s) (hs : Reports s)
    (hnewest : s.theSlot.UpToDate) (ht : t ∈ s.tasks) (hgoes : t.GoesOn) (outcome : Outcome ρ) :
    (s.settle t.flight outcome).flight? = none ∧ (s.settle t.flight outcome).theSlot.UpToDate ∧
      (s.settle t.flight outcome).theSlot.state = .unanalyzed := by
  obtain ⟨hslot, hf⟩ := theSlot_inFlight hcoherent.exclusive ht hgoes
  have holder : t.flight.version < s.theSlot.version :=
    Nat.lt_of_le_of_ne (hcoherent.theSlot.inFlight _ hf).1 (hs.stale hnewest _ hf)
  obtain ⟨hnewest', hstate⟩ := Slot.settle_older hnewest holder outcome
  rcases settle_cases hslot hf outcome with ⟨text, hpending, -⟩ | ⟨htext, -⟩ | ⟨-, hkept⟩
  · rw [hs.pending hnewest] at hpending
    cases hpending
  · obtain ⟨result, hpublished⟩ := hnewest
    obtain ⟨text, hcall, -⟩ := hsince.slot.published _ hpublished
    rw [hsince.slot.calls_nil htext] at hcall
    cases hcall
  · have hslot' := theSlot_of_slot (show (s.settle t.flight outcome).slot = _ by rw [hkept])
    obtain ⟨state, published, failure, heq⟩ := s.theSlot.settle_eq t.flight outcome
    rw [flight?_theSlot, hslot']
    exact ⟨by rw [heq], hnewest', hstate⟩

/-- Once the older text is analysed, the newest has its result and is reported as `unanalyzed`. -/
theorem late_goes_wrong (hcoherent : Coherent e history s) (hsince : Since e calls s) (hs : Reports s)
    (hlate : s.Late) :
    ∃ s', Relation.ReflTransGen (Works e) s s' ∧ s'.flight? = none ∧ s'.theSlot.UpToDate ∧
      s'.theSlot.state = .unanalyzed := by
  obtain ⟨hnewest, f, hflight, -⟩ := hlate
  obtain ⟨slot, hslot, hf⟩ := flight?_eq_some_iff.mp hflight
  obtain ⟨t, ht, rfl, hgoes⟩ := hcoherent.flying slot f hslot hf
  obtain ⟨-, hread, hwork⟩ | ⟨outcome, -, -, hwork⟩ | ⟨outcome, hsettled, -⟩ := work_cases e s t
  · let t' : Task ρ := { t with progress := .checking }
    have hexclusive := hcoherent.exclusive
    have ht' : t' ∈ (s.advance t.flight).tasks := List.mem_map.mpr ⟨t, ht, by rw [if_pos rfl]⟩
    have hcheck : (s.advance t.flight).work e t' =
        (s.advance t.flight).settle t'.flight (e.check t.flight.text) := by simp only [work, t']
    have hnewest' : (s.advance t.flight).theSlot.UpToDate := by
      obtain ⟨state, hadvance⟩ := slot.advance_eq t.flight
      rw [theSlot_of_slot hslot] at hnewest
      rw [theSlot_of_slot (show (s.advance t.flight).slot = some { slot with state } by
        simp [advance, hslot, hadvance])]
      exact hnewest
    refine ⟨_, (Relation.ReflTransGen.single ⟨t, ht, hwork⟩).tail ⟨t', ht', hcheck⟩, ?_⟩
    exact late_settle (hcoherent.advance ht hgoes hread) (hsince.advance hexclusive ht hgoes)
      (hs.advance hexclusive ht hgoes) hnewest' ht' trivial _
  · exact ⟨_, .single ⟨t, ht, hwork⟩, late_settle hcoherent hsince hs hnewest ht hgoes outcome⟩
  · simp [Task.GoesOn, hsettled] at hgoes

end FileChecks

namespace Recorded

open FileChecks

variable {r r' : Recorded ρ}

/-- A step that does not forget the slot while a call waits, and that does not have an older text analysed
once the newest has its result. -/
def PromptStep (e : FrontEnd ρ) (r r' : Recorded ρ) : Prop := OrderlyStep e r r' ∧ ¬r'.checks.Late

/-- The state is `ready` exactly if the last result belongs to the newest version, which is that of the
last call. -/
structure Truthful (e : FrontEnd ρ) (r : Recorded ρ) : Prop where
  ready : r.checks.state = .ready ↔ r.checks.theSlot.UpToDate
  latest : r.checks.theSlot.UpToDate → ∃ text result, r.calls.head? = some (r.checks.theSlot.version, text) ∧
    r.checks.latest? = some result ∧ e.analyze text = .ok result

theorem latest?_theSlot (s : FileChecks ρ) : s.latest? = s.theSlot.published.map (·.2) := by
  unfold latest? theSlot
  cases s.slot <;> rfl

theorem latest_of_upToDate (hs : Since e r.calls r.checks) (h : r.checks.theSlot.UpToDate) :
    ∃ text result, r.calls.head? = some (r.checks.theSlot.version, text) ∧
      r.checks.latest? = some result ∧ e.analyze text = .ok result := by
  obtain ⟨result, hpublished⟩ := h
  obtain ⟨text, hcall, hresult⟩ := hs.slot.published _ hpublished
  refine ⟨text, result, ?_, by rw [latest?_theSlot, hpublished]; rfl, hresult⟩
  exact ((hs.slot.newest _ hcall).resolve_left (Nat.lt_irrefl _)).2

theorem orderly_of_prompt (hrun : Relation.ReflTransGen (PromptStep e) {} r) :
    Relation.ReflTransGen (OrderlyStep e) {} r := hrun.lift id fun _ _ => And.left

theorem reports_of_run (hrun : Relation.ReflTransGen (OrderlyStep e) {} r) : Reports r.checks := by
  induction hrun with
  | refl => exact reports_of_unknown rfl
  | tail hrun hstep ih =>
    obtain ⟨history, hcoherent⟩ := (orderly_of_run hrun).coherent
    exact ih.step hcoherent (since_of_run hrun) hstep.1

theorem shows_of_run (hrun : Relation.ReflTransGen (PromptStep e) {} r) : Shows r.checks := by
  induction hrun with
  | refl => exact fun h => absurd h (not_upToDate_of_unknown rfl)
  | @tail r r' hrun hstep ih =>
    obtain ⟨horderly, hprompt⟩ := hstep
    have hbefore := orderly_of_prompt hrun
    obtain ⟨history, hcoherent⟩ := (orderly_of_run hbefore).coherent
    have hreports := reports_of_run (hbefore.tail horderly)
    intro hnewest
    refine ih.step hcoherent (reports_of_run hbefore) horderly.1 hnewest ?_
    refine Option.eq_none_iff_forall_ne_some.mpr fun f hf => hprompt ⟨hnewest, f, hf, ?_⟩
    exact hreports.stale hnewest f ((flight?_theSlot _).symm.trans hf)

theorem truthful_of_prompt (hrun : Relation.ReflTransGen (PromptStep e) {} r)
    (hannounced : ¬r.checks.Announced) : Truthful e r := by
  have hbefore := orderly_of_prompt hrun
  refine ⟨?_, latest_of_upToDate (since_of_run hbefore)⟩
  rw [state_theSlot]
  refine ⟨fun hready => ?_, shows_of_run hrun⟩
  exact ((reports_of_run hbefore).ready hready).resolve_right hannounced

/-- The state is wrong, although no analysis goes on and the call for the newest text had its turn. -/
def Misreports (e : FrontEnd ρ) (r : Recorded ρ) : Prop :=
  r.checks.flight? = none ∧ ¬r.checks.Announced ∧ ¬Truthful e r

theorem late_misreports (hcoherent : Coherent e history r.checks) (hs : Since e r.calls r.checks)
    (hreports : Reports r.checks) (hlate : r.checks.Late) :
    ∃ r', Relation.ReflTransGen (Step e) r r' ∧ Misreports e r' := by
  obtain ⟨s, hrun, hidle, hnewest, hstate⟩ := late_goes_wrong hcoherent hs hreports hlate
  refine ⟨⟨s, r.calls⟩, run_of_works hrun, hidle, fun hannounced => hannounced.1 hnewest, fun htruthful => ?_⟩
  have hready := htruthful.ready.mpr hnewest
  rw [state_theSlot, hstate] at hready
  cases hready

theorem forgotten_misreports (he : e.Distinguishes) (hcoherent : Coherent e history r.checks)
    (hs : Since e r.calls r.checks) (hstep : Step e r r') (hforgets : Forgets r.checks r'.checks)
    (hwaits : r.checks.Waits) : ∃ r'', Relation.ReflTransGen (Step e) r' r'' ∧ Misreports e r'' := by
  obtain ⟨s, t, result, text, hrun, ht, -, htext, hresult, -, hslot⟩ :=
    forgotten_call_publishes he hcoherent hs hstep hforgets hwaits
  have hnewest : (s.work e t).theSlot.UpToDate := by
    rw [theSlot_of_slot hslot]
    exact ⟨result, rfl⟩
  refine ⟨_, hrun.tail (.work s _ t ht), ?_, fun hannounced => hannounced.1 hnewest, fun htruthful => ?_⟩
  · exact flight?_of_slot hslot
  · obtain ⟨text', result', hcall, hlatest, hright⟩ := htruthful.latest hnewest
    obtain rfl : text = text' := congrArg Prod.snd (Option.some.inj hcall)
    have hshown : (s.work e t).latest? = some result := by
      rw [latest?_theSlot, theSlot_of_slot hslot]
      rfl
    obtain rfl := Option.some.inj (hshown.symm.trans hlatest)
    exact htext (he.apart _ _ _ hright hresult)

/-- Where each step is prompt, the reported state is right as soon as the call for the newest text has had
its turn. A step that is not prompt can lead to a wrong state. -/
theorem prompt_state_truthful (hrun : Relation.ReflTransGen (PromptStep e) {} r) :
    (¬r.checks.Announced → Truthful e r) ∧
      ∀ r', Step e r r' → ¬PromptStep e r r' → e.Distinguishes →
        ∃ r'', Relation.ReflTransGen (Step e) r' r'' ∧ Misreports e r'' := by
  refine ⟨truthful_of_prompt hrun, fun r' hstep hprompt he => ?_⟩
  have hbefore := orderly_of_prompt hrun
  have hs := since_of_run hbefore
  obtain ⟨history, hcoherent⟩ := (orderly_of_run hbefore).coherent
  by_cases hforgets : Forgets r.checks r'.checks ∧ r.checks.Waits
  · exact forgotten_misreports he hcoherent hs hstep hforgets.1 hforgets.2
  · have horderly : OrderlyStep e r r' := ⟨hstep, fun hforgets' hwaits => hforgets ⟨hforgets', hwaits⟩⟩
    have hlate : r'.checks.Late := of_not_not fun hlate => hprompt ⟨horderly, hlate⟩
    have hafter := hbefore.tail horderly
    obtain ⟨history', hcoherent'⟩ := (orderly_of_run hafter).coherent
    exact late_misreports hcoherent' (since_of_run hafter) (reports_of_run hafter) hlate

/-- Of two calls the newer has its result, and then the older takes its turn. -/
theorem newer_call_first :
    let r : Recorded Text := ⟨((((({} : FileChecks Text).request ['a']).request ['b']).turn
      ⟨1, 2, ['b'], .ready⟩).work .echo ⟨⟨0, 2, ['b']⟩, .parsing⟩).work .echo ⟨⟨0, 2, ['b']⟩, .checking⟩,
      [(2, ['b']), (1, ['a'])]⟩
    r.checks.state = .ready ∧ Truthful .echo r ∧
      ∃ r', Relation.ReflTransGen (Step .echo) ⟨r.checks.turn ⟨0, 1, ['a'], .ready⟩, r.calls⟩ r' ∧
        Misreports .echo r' := by
  let s₁ := ({} : FileChecks Text).request ['a']
  let s₂ := s₁.request ['b']
  let s₃ := s₂.turn ⟨1, 2, ['b'], .ready⟩
  let s₄ := s₃.work .echo ⟨⟨0, 2, ['b']⟩, .parsing⟩
  let s₅ := s₄.work .echo ⟨⟨0, 2, ['b']⟩, .checking⟩
  have hprompt {r r' : Recorded Text} (hstep : Step .echo r r') (hslot : r'.checks.slot.isSome)
      (hlate : ¬r'.checks.Late) : PromptStep .echo r r' := by
    refine ⟨⟨hstep, fun hforgets => ?_⟩, hlate⟩
    rw [hforgets.2] at hslot
    cases hslot
  have hcalls : Relation.ReflTransGen (PromptStep .echo) {} ⟨s₂, [(2, ['b']), (1, ['a'])]⟩ :=
    (Relation.ReflTransGen.single (hprompt (.request {} [] ['a']) rfl fun hlate => nomatch hlate.1)).tail
      (hprompt (.request s₁ _ ['b']) rfl fun hlate => nomatch hlate.1)
  have hanalysis : Relation.ReflTransGen (PromptStep .echo) ⟨s₂, [(2, ['b']), (1, ['a'])]⟩
      ⟨s₅, [(2, ['b']), (1, ['a'])]⟩ :=
    ((Relation.ReflTransGen.single (hprompt (.turn s₂ _ ⟨1, 2, ['b'], .ready⟩ (.tail _ (.head _)) rfl) rfl
      fun hlate => nomatch hlate.1)).tail
        (hprompt (.work s₃ _ _ (.head _)) rfl fun hlate => nomatch hlate.1)).tail
          (hprompt (.work s₄ _ _ (.head _)) rfl fun hlate => nomatch hlate.2)
  obtain ⟨htruthful, hwrong⟩ := prompt_state_truthful (hcalls.trans hanalysis)
  refine ⟨rfl, htruthful fun hannounced => hannounced.1 ⟨_, rfl⟩, ?_⟩
  refine hwrong _ (.turn s₅ _ ⟨0, 1, ['a'], .ready⟩ (.head _) rfl) (fun hstep => hstep.2 ?_)
    FrontEnd.echo_distinguishes
  exact ⟨⟨_, rfl⟩, _, rfl, by decide⟩

/-- The file has the result of its newest text, and an older call has the state read `unanalyzed`. -/
theorem older_call_last :
    ∃ r : Recorded Text, Relation.ReflTransGen (Step .echo) {} r ∧ r.checks.flight? = none ∧
      r.checks.state = .unanalyzed ∧ r.checks.latest? = some ['b'] ∧ r.calls.head? = some (2, ['b']) ∧
      r.checks.version? = some 2 ∧ ¬Truthful .echo r := by
  let calls : List (Nat × Text) := [(2, ['b']), (1, ['a'])]
  let s₁ := (({} : FileChecks Text).request ['a']).request ['b']
  let s₂ := s₁.turn ⟨1, 2, ['b'], .ready⟩
  let s₃ := s₂.work .echo ⟨⟨0, 2, ['b']⟩, .parsing⟩
  let s₄ : FileChecks Text :=
    { slot := some { state := .ready, version := 2, text := some ['b'], published := some (2, ['b']) }
      tasks := [⟨⟨0, 2, ['b']⟩, .settled (.ok ['b'])⟩]
      callers := [⟨0, 1, ['a'], .ready⟩, ⟨1, 2, ['b'], .joined 0⟩]
      flights := 1, calls := 2, checksBegun := 1 }
  let s₅ := s₄.turn ⟨0, 1, ['a'], .ready⟩
  let s₆ := s₅.work .echo ⟨⟨1, 1, ['a']⟩, .parsing⟩
  let s₇ : FileChecks Text :=
    { slot := some { version := 2, text := some ['b'], published := some (2, ['b']) }
      tasks := [⟨⟨0, 2, ['b']⟩, .settled (.ok ['b'])⟩, ⟨⟨1, 1, ['a']⟩, .settled (.ok ['a'])⟩]
      callers := [⟨0, 1, ['a'], .joined 1⟩, ⟨1, 2, ['b'], .joined 0⟩]
      flights := 2, calls := 2, checksBegun := 2 }
  refine ⟨⟨s₇, calls⟩, ?_, rfl, rfl, rfl, rfl, rfl, fun htruthful => ?_⟩
  · have hcalls : Relation.ReflTransGen (Step .echo) {} ⟨s₁, calls⟩ :=
      (Relation.ReflTransGen.single (.request {} [] ['a'])).tail (.request _ _ ['b'])
    have hnewer : Relation.ReflTransGen (Step .echo) ⟨s₁, calls⟩ ⟨s₄, calls⟩ :=
      ((Relation.ReflTransGen.single (.turn s₁ calls _ (.tail _ (.head _)) rfl)).tail
        (.work s₂ calls _ (.head _))).tail (.work s₃ calls _ (.head _))
    have holder : Relation.ReflTransGen (Step .echo) ⟨s₄, calls⟩ ⟨s₇, calls⟩ :=
      ((Relation.ReflTransGen.single (.turn s₄ calls _ (.head _) rfl)).tail
        (.work s₅ calls _ (.tail _ (.head _)))).tail (.work s₆ calls _ (.tail _ (.head _)))
    exact (hcalls.trans hnewer).trans holder
  · have hready := htruthful.ready.mpr ⟨['b'], rfl⟩
    cases hready

end Recorded
end ScriptAnalyzer

import ScriptAnalyzer.Proofs.Syntax.NamePlaces
import ScriptAnalyzer.Proofs.Typing.DottedPaths
import ScriptAnalyzer.Proofs.Typing.MemberNames

/-!
A name that the checker finds through an entity is found from the place of the name, too: no binder that
can be named there has the name of the first segment, and the symbol is the one of the written name inside
an entity whose contents need no qualification there.
-/

namespace ScriptAnalyzer

theorem Entities.libraries_withNamespaces (es : Entities) (path before : String) (segments : List String) :
    (es.withNamespaces path before segments).libraries = es.libraries :=
  withNamespaces_keeps (R := fun es' => es'.libraries = es.libraries) (fun _ _ h => h) rfl path before
    segments

namespace CheckerState

/-- The recorded entities whose contents need no qualification at `offset`, and the outermost level. -/
def pathsAt (o : CheckerState) (offset : Nat) : List String :=
  (o.records.regions.filter (·.span.touches offset)).map (·.path) ++ "" :: o.entities.autoOpened

/-- Everywhere in the last segment of the name the symbol is found through an entity in sight, or through
one of `outer`, and the first segment means no binder. -/
structure Sees (outer : List String) (o : CheckerState) (name : LongIdent) (symbol : Symbol) : Prop where
  free : ∀ offset, name.last.span.start ≤ offset → offset < name.last.span.stop →
    ∀ v ∈ o.records.visible, v.1.touches offset = true → ∃ n, o.names[v.2]? = some n ∧ n.2 ≠ name.head.text
  reach : ∀ offset, name.last.span.start ≤ offset → offset < name.last.span.stop →
    ∃ p, (p ∈ outer ∨ p ∈ o.pathsAt offset) ∧ symbol.name = qualify p (joinPath name.segments)

/-- The records of `o'` go on from those of `o`. What comes into scope meanwhile can be named from `n`
on. -/
structure Grows (n : Nat) (o o' : CheckerState) : Prop where
  visible : ∃ later, o'.records.visible = later ++ o.records.visible ∧ ∀ v ∈ later, n ≤ v.1.start
  names : o.names <+: o'.names
  regions : o.records.regions ⊆ o'.records.regions
  members : o.records.members ⊆ o'.records.members
  libraries : o'.entities.libraries = o.entities.libraries

variable {outer : List String} {n n' stop stop' : Nat} {o o₁ o' : CheckerState}

namespace Grows

theorem of_same (hsame : SameScope o o') (hregions : o.records.regions ⊆ o'.records.regions)
    (hmembers : o.records.members ⊆ o'.records.members)
    (hlibraries : o'.entities.libraries = o.entities.libraries) : Grows n o o' :=
  ⟨⟨[], hsame.visible, nofun⟩, hsame.names ▸ List.prefix_rfl, hregions, hmembers, hlibraries⟩

theorem refl (n : Nat) (o : CheckerState) : Grows n o o :=
  .of_same (.refl o) (fun _ h => h) (fun _ h => h) rfl

theorem trans (h : Grows n o o₁) (h' : Grows n o₁ o') : Grows n o o' where
  visible := by
    obtain ⟨later, heq, hlater⟩ := h.visible
    obtain ⟨later', heq', hlater'⟩ := h'.visible
    exact ⟨later' ++ later, by rw [heq', heq, List.append_assoc],
      List.forall_mem_append.mpr ⟨hlater', hlater⟩⟩
  names := h.names.trans h'.names
  regions := List.Subset.trans h.regions h'.regions
  members := List.Subset.trans h.members h'.members
  libraries := h'.libraries.trans h.libraries

theorem weaken (h : Grows n' o o') (hn : n ≤ n') : Grows n o o' where
  visible := by
    obtain ⟨later, heq, hlater⟩ := h.visible
    exact ⟨later, heq, fun v hv => Nat.le_trans hn (hlater v hv)⟩
  names := h.names
  regions := h.regions
  members := h.members
  libraries := h.libraries

theorem note (o : CheckerState) (span : Span) (symbol : Symbol) : Grows n o (o.note span symbol) :=
  .of_same (.note o span symbol) (fun _ h => h) (fun _ h => h) rfl

theorem access (o : CheckerState) (site : MemberSite) : Grows n o (o.access site) :=
  .of_same (.access o site) (fun _ h => h) (fun _ h => List.mem_cons_of_mem _ h) rfl

theorem modify (o : CheckerState) (i : Nat) (f : Binder → Binder)
    (hf : ∀ b, (f b).name = b.name ∧ (f b).simpleName = b.simpleName) :
    Grows n o { o with binders := o.binders.modify i f } :=
  .of_same (.modify o i f hf) (fun _ h => h) (fun _ h => h) rfl

theorem use (o : CheckerState) (i : Nat) (span : Span) : Grows n o (o.useBinder i span) where
  visible := ⟨[], rfl, nofun⟩
  names := (modify (n := n) o i (fun b => { b with used := true }) fun _ => ⟨rfl, rfl⟩).names
  regions _ h := h
  members _ h := h
  libraries := rfl

theorem scope (o : CheckerState) (scope : CheckerScope) : Grows n o { o with scope } :=
  ⟨⟨[], rfl, nofun⟩, List.prefix_rfl, fun _ h => h, fun _ h => h, rfl⟩

theorem enter {b : Binder} {visible : Span} (hstart : n ≤ visible.start) (o : CheckerState) :
    Grows n o (o.enter b visible) where
  visible := ⟨[(visible, o.binders.size)], rfl, List.forall_mem_singleton.mpr hstart⟩
  names := ⟨[(b.name, b.simpleName)], by simp [CheckerState.names, CheckerState.enter]⟩
  regions _ h := h
  members _ h := h
  libraries := rfl

theorem settle (o : CheckerState) (indices : List Nat) (scheme : Scheme) :
    Grows n o (o.settle indices scheme) := by
  unfold CheckerState.settle
  induction indices generalizing o with
  | nil => exact .refl n o
  | cons i is ih => exact (modify o i (fun b => { b with scheme }) fun _ => ⟨rfl, rfl⟩).trans (ih _)

theorem declareAt (o : CheckerState) (span : Span) (target : Target) : Grows n o (o.declareAt span target) :=
  .of_same (.declareAt o span target) (fun _ h => h) (fun _ h => h) rfl

theorem entities (o : CheckerState) {es : Entities} (h : es.libraries = o.entities.libraries) :
    Grows n o { o with entities := es } :=
  .of_same (.entities o es) (fun _ h => h) (fun _ h => h) h

theorem opening (o : CheckerState) (region : Span) (path : String) : Grows n o (o.opening region path) :=
  .of_same (.opening o region path) (fun _ h => List.mem_cons_of_mem _ h) (fun _ h => h) rfl

theorem publishAll (o : CheckerState) (indices : List Nat) : Grows n o (o.publishAll indices) :=
  publishAll_keeps (fun _ _ _ _ _ h => h.trans (.entities _ rfl)) (.refl n o)

theorem enterModule (o : CheckerState) (path : String) (name : Option Span) (region : Span) :
    Grows n o (o.enterModule path name region) := by
  have hlibraries := o.entities.libraries_withNamespaces path "" (pathSegments path)
  refine .of_same (.enterModule o path name region) ?_ ?_ ?_
  · cases name <;> exact fun _ h => List.mem_cons_of_mem _ h
  · cases name <;> exact fun _ h => h
  · cases name <;> exact hlibraries

end Grows

theorem Sees.keep {name : LongIdent} {symbol : Symbol} (h : o.Sees outer name symbol)
    (hgrows : Grows n o o') (hn : name.last.span.stop ≤ n) : o'.Sees outer name symbol where
  free offset hstart hstop v hv htouches := by
    obtain ⟨later, heq, hlater⟩ := hgrows.visible
    rw [heq] at hv
    rcases List.mem_append.mp hv with hv | hv
    · have hbehind := hlater v hv
      simp only [Span.touches, Bool.and_eq_true, decide_eq_true_eq] at htouches
      omega
    · obtain ⟨known, hknown, hne⟩ := h.free offset hstart hstop v hv htouches
      obtain ⟨added, hadded⟩ := hgrows.names
      refine ⟨known, ?_, hne⟩
      rw [← hadded, List.getElem?_append_left (List.getElem?_eq_some_iff.mp hknown).1, hknown]
  reach offset hstart hstop := by
    obtain ⟨p, hp, hname⟩ := h.reach offset hstart hstop
    refine ⟨p, hp.imp_right fun hp => ?_, hname⟩
    rcases List.mem_append.mp hp with hp | hp
    · obtain ⟨region, hregion, rfl⟩ := List.mem_map.mp hp
      obtain ⟨hregion, htouches⟩ := List.mem_filter.mp hregion
      refine List.mem_append_left _ (List.mem_map_of_mem ?_)
      exact List.mem_filter.mpr ⟨hgrows.regions hregion, htouches⟩
    · refine List.mem_append_right _ ?_
      rwa [Entities.autoOpened, hgrows.libraries]

/-- Why a name was recorded. Names of `N` that end in front of `stop` may be found through entities. -/
inductive Accounts (L : Landmark → Prop) (N : LongIdent → Prop) (outer : List String) (stop : Nat)
    (o : CheckerState) (m : Mention) : Prop
  | definition : m.isDefinition = true → Accounts L N outer stop o m
  | binder {i : Nat} : m.target = .binder i → Accounts L N outer stop o m
  | label {n : Ident} : L (.label n) → m.span = n.span → Accounts L N outer stop o m
  /-- A member of a value. -/
  | value {site : MemberSite} {t : Ty} :
    site ∈ o.records.members → site.name = some m.span → site.receiver = .value t →
    Accounts L N outer stop o m
  | found {name : LongIdent} {symbol : Symbol} :
    N name → m.span = name.last.span → m.target = .fixed symbol → name.last.span.stop ≤ stop →
    o.Sees outer name symbol → Accounts L N outer stop o m

/-- Going on from `o` to `o'`, of which the new names end in front of `stop`. -/
structure Adds (L : Landmark → Prop) (N : LongIdent → Prop) (outer : List String) (n stop : Nat)
    (o o' : CheckerState) : Prop where
  grows : Grows n o o'
  mentions : ∀ m ∈ o'.records.mentions, m ∈ o.records.mentions ∨ Accounts L N outer stop o' m

variable {L : Landmark → Prop} {N : LongIdent → Prop} {m : Mention}

theorem Accounts.keep (h : Accounts L N outer stop o m) (hgrows : Grows stop o o') (hstop : stop ≤ stop') :
    Accounts L N outer stop' o' m := by
  cases h with
  | definition h => exact .definition h
  | binder h => exact .binder h
  | label h hspan => exact .label h hspan
  | value hsite hname ht => exact .value (hgrows.members hsite) hname ht
  | found hN hspan htarget hend hsees =>
    exact .found hN hspan htarget (Nat.le_trans hend hstop) (hsees.keep hgrows hend)

namespace Adds

/-- Going on without any names. -/
theorem of_grows (h : Grows n o o') (hmentions : o'.records.mentions = o.records.mentions) :
    Adds L N outer n stop o o' :=
  ⟨h, fun _ hm => .inl (hmentions ▸ hm)⟩

theorem refl (o : CheckerState) : Adds L N outer n stop o o := .of_grows (.refl n o) rfl

/-- Going on with one more name. -/
theorem of_mention (h : Grows n o o') (hmentions : o'.records.mentions = m :: o.records.mentions)
    (hm : Accounts L N outer stop o' m) : Adds L N outer n stop o o' := by
  refine ⟨h, fun m' hm' => ?_⟩
  rw [hmentions] at hm'
  rcases List.mem_cons.mp hm' with rfl | hm'
  · exact .inr hm
  · exact .inl hm'

theorem trans (h : Adds L N outer n stop o o₁) (h' : Adds L N outer n' stop' o₁ o') (hn : n ≤ n')
    (hstop : stop ≤ n') (hstop' : stop ≤ stop') : Adds L N outer n stop' o o' where
  grows := h.grows.trans (h'.grows.weaken hn)
  mentions m hm := by
    rcases h'.mentions m hm with hm | hm
    · exact (h.mentions m hm).imp_right fun haccounts =>
        haccounts.keep (h'.grows.weaken hstop) hstop'
    · exact .inr hm

/-- First a step whose names are not found through entities. -/
theorem andThen (h : Adds L N outer n 0 o o₁) (h' : Adds L N outer n stop o₁ o') :
    Adds L N outer n stop o o' :=
  h.trans h' (Nat.le_refl n) (Nat.zero_le n) (Nat.zero_le stop)

end Adds

/-- The enclosing modules and the opened entities are recorded for the part of the text from `start` to
`stop`, unless they are among `outer`. -/
structure Opened (outer : List String) (start stop : Nat) (o : CheckerState) : Prop where
  covered : ∀ p ∈ enclosingPaths o.scope.modulePath ++ o.scope.opens, p ∈ outer ∨
    ∃ region ∈ o.records.regions, region.path = p ∧ region.span.start ≤ start ∧ stop ≤ region.span.stop
  plain : ∀ p ∈ o.searchPaths, EndsPlain p
  modulePath : o.scope.modulePath = [] ∨ pathSegments (joinPath o.scope.modulePath) = o.scope.modulePath

namespace Opened

theorem mono {start start' : Nat} (h : o.Opened outer start stop) (hstart : start ≤ start')
    (hstop : stop' ≤ stop) : o.Opened outer start' stop' where
  covered p hp := (h.covered p hp).imp_right fun ⟨region, hregion, hpath, hfrom, hto⟩ =>
    ⟨region, hregion, hpath, Nat.le_trans hfrom hstart, Nat.le_trans hstop hto⟩
  plain := h.plain
  modulePath := h.modulePath

theorem keep {start : Nat} (h : o.Opened outer start stop) (hgrows : Grows n o o')
    (hmodule : o'.scope.modulePath = o.scope.modulePath) (hopens : o'.scope.opens = o.scope.opens) :
    o'.Opened outer start stop where
  covered p hp := by
    rw [hmodule, hopens] at hp
    exact (h.covered p hp).imp_right fun ⟨region, hregion, hrest⟩ =>
      ⟨region, hgrows.regions hregion, hrest⟩
  plain p hp := by
    rw [searchPaths, hmodule, hopens, Entities.autoOpened, hgrows.libraries] at hp
    exact h.plain p hp
  modulePath := hmodule.symm ▸ h.modulePath

/-- The paths that are searched in are in sight from the text. -/
theorem sighted {start offset : Nat} {p : String} (h : o.Opened outer start stop) (hp : p ∈ o.searchPaths)
    (hstart : start ≤ offset) (hstop : offset ≤ stop) : p ∈ outer ∨ p ∈ o.pathsAt offset := by
  rcases List.mem_append.mp hp with hp | hp
  · refine (h.covered p hp).imp_right ?_
    rintro ⟨region, hregion, rfl, hfrom, hto⟩
    refine List.mem_append_left _ (List.mem_map_of_mem (List.mem_filter.mpr ⟨hregion, ?_⟩))
    simp only [Span.touches, Bool.and_eq_true, decide_eq_true_eq]
    omega
  · exact .inr (List.mem_append_right _ hp)

end Opened

theorem mem_searchPaths_of_containers {p : String} (h : p ∈ o.containers) : p ∈ o.searchPaths := by
  rcases List.mem_append.mp h with h | h
  · exact List.mem_append_left _ h
  · exact List.mem_append_right _ (List.mem_cons_of_mem _ h)

/-- The path of an entity that is found is the written one inside an entity that is searched. -/
theorem path_of_entity? {segments : List String} {path : String} (h : o.entity? segments = some path) :
    ∃ p ∈ o.searchPaths, path = qualify p (joinPath segments) := by
  obtain ⟨p, hp, hpath⟩ := List.mem_map.mp (List.mem_of_find?_eq_some h)
  exact ⟨p, hp, hpath.symm⟩

theorem segments_ne_nil (name : LongIdent) : name.segments ≠ [] := by
  simp [LongIdent.segments, LongIdent.parts]

/-- What is inside the entity of a leading part of the name has the written name. -/
theorem inside_name {name outer : LongIdent} {last : Ident} {p path : String}
    (hparts : name.parts = outer.parts ++ [last]) (hpath : path = qualify p (joinPath outer.segments)) :
    path ++ "." ++ last.text = qualify p (joinPath name.segments) := by
  have hsegments : name.segments = outer.segments ++ [last.text] := by
    rw [LongIdent.segments, LongIdent.segments, hparts, List.map_append, List.map_singleton]
  rw [hsegments, qualify_joinPath_concat (segments_ne_nil outer), hpath]

theorem Finds.reach {name : LongIdent} {symbol : Symbol} (h : o.Finds name symbol)
    (hplain : ∀ p ∈ o.searchPaths, EndsPlain p) (hname : ∀ n ∈ name.parts, n.text ≠ "") :
    ∃ p ∈ o.searchPaths, symbol.name = qualify p (joinPath name.segments) := by
  cases h with
  | whole hpath he =>
    obtain ⟨p, hp, rfl⟩ := path_of_entity? hpath
    exact ⟨p, hp, (Entities.mem_of_find? he).2⟩
  | part hpath _ he =>
    obtain ⟨p, hp, rfl⟩ := path_of_entity? hpath
    refine ⟨p, hp, (Entities.mem_of_find? he).2.trans ?_⟩
    have hsegments : ∀ x ∈ name.segments, x ≠ "" := fun x hx => by
      obtain ⟨n, hn, rfl⟩ := List.mem_map.mp hx
      exact hname n hn
    rw [foldl_qualify (segments_ne_nil name) hsegments]
    congr 1
    exact pathBefore_qualify (hplain p hp) _
  | inner hpath hparts he =>
    obtain ⟨p, hp, hpath⟩ := path_of_entity? hpath
    exact ⟨p, hp, (Entities.mem_of_find? he).2.trans (inside_name hparts hpath)⟩
  | @member outer last path e m hpath hparts he hm =>
    obtain ⟨p, hp, hpath⟩ := path_of_entity? hpath
    have houter : path ≠ "" := by
      rw [hpath]
      refine qualify_ne_empty (joinPath_ne_empty (segments_ne_nil outer) fun x hx => ?_) p
      obtain ⟨n, hn, rfl⟩ := List.mem_map.mp hx
      exact hname n (hparts ▸ List.mem_append_left _ hn)
    refine ⟨p, hp, ?_⟩
    rw [m.symbol_name, (Entity.mem_of_staticMember? hm).2.1, qualify_of_ne houter]
    exact inside_name hparts hpath
  | @«open» owner m hm htail =>
    obtain ⟨owner', howner', hfound⟩ := List.exists_of_findSome?_eq_some hm
    obtain ⟨m', hm', heq⟩ := Option.map_eq_some_iff.mp hfound
    obtain ⟨rfl, rfl⟩ := Prod.mk.inj heq
    obtain ⟨e, he, hm'⟩ := Option.bind_eq_some_iff.mp hm'
    refine ⟨owner', mem_searchPaths_of_containers howner', ?_⟩
    rw [m'.symbol_name, (Entity.mem_of_staticMember? hm').2.1, LongIdent.segments, LongIdent.parts, htail,
      List.map_singleton, joinPath_singleton]

/-- A name that is found where no binder has the name of its first segment is seen from there. -/
theorem Scoped.sees {w : Span → String} {a : Cut} {live : List (Span × Nat)} {name : LongIdent}
    {symbol : Symbol} (h : Scoped w a live o) (hopened : o.Opened outer a.next stop)
    (hstart : a.next ≤ name.last.span.start) (hstop : name.last.span.stop ≤ stop)
    (hlive : ∀ v ∈ live, v.1.start ≤ name.last.span.start ∧ name.last.span.stop ≤ v.1.stop)
    (hname : ∀ n ∈ name.parts, n.text ≠ "") (hfree : o.binder? name.head.text = none)
    (hfinds : o.Finds name symbol) : o.Sees outer name symbol where
  free offset hle hlt v hv htouches := by
    have hmem : v ∈ live := by
      rw [← h.standing.filter_eq (Nat.le_trans hstart hle) fun v hv => ?_]
      · exact List.mem_filter.mpr ⟨hv, htouches⟩
      · have := hlive v hv
        simp only [Span.touches, Bool.and_eq_true, decide_eq_true_eq]
        omega
    have hbound := h.bound v hv
    refine ⟨o.names[v.2], List.getElem?_eq_getElem hbound, fun heq => ?_⟩
    rw [binder?_eq, h.scope] at hfree
    have hnot := List.find?_eq_none.mp hfree v.2 (List.mem_map_of_mem hmem)
    rw [isNamed, List.getElem?_eq_getElem hbound, Option.any_some, heq] at hnot
    exact hnot (beq_self_eq_true _)
  reach offset hle hlt := by
    obtain ⟨p, hp, hsymbol⟩ := hfinds.reach hopened.plain hname
    exact ⟨p, hopened.sighted hp (Nat.le_trans hstart hle) (Nat.le_trans (Nat.le_of_lt hlt) hstop), hsymbol⟩

end CheckerState
end ScriptAnalyzer

import ScriptAnalyzer.Proofs.Query.Completions
import ScriptAnalyzer.Proofs.Query.Uses

/-!
What the completions are chosen from, and in what order they stand. Main statement: each name of a candidate
that starts as the text in front of the cursor is offered once, for the first candidate that has it; the
names of members come first, and both parts of the list are sorted.
-/

namespace ScriptAnalyzer

/-- The symbols that may be offered: those of members, and those that need no qualification. -/
structure Candidates where
  members : List Symbol
  scope : List Symbol

/-- Without a path in front of the cursor its receiver and what is visible, else what the path has, and the
receiver only if that is nothing. Where the line has changed, nothing is known of a receiver. -/
def CheckResult.candidates (r : CheckResult) (p : Position) (line : Text) (path : List String)
    (stale : Bool) : Candidates :=
  let offset := r.offsetNear p
  let received := if r.isStale p line || stale then [] else r.receiverMembers offset
  match path, r.membersOfPath path offset with
  | [], _ => ⟨received, r.visibleAt offset⟩
  | _ :: _, [] => ⟨received, []⟩
  | _ :: _, m :: ms => ⟨m :: ms, []⟩

namespace Completion

variable {partialName : Text} {a b c item : Completion} {symbols members scope : List Symbol}

/-- The lower case of the name comes first, or it is the same and the name comes first. -/
def Precedes (a b : Completion) : Prop :=
  Text.toLower a.name.toList < Text.toLower b.name.toList ∨
    Text.toLower a.name.toList = Text.toLower b.name.toList ∧ a.name.toList < b.name.toList

theorem le_iff : le a b = true ↔ Precedes a b ∨ a.name = b.name := by
  unfold le Precedes
  dsimp only
  split
  case isTrue heq =>
    rw [decide_eq_true_iff, List.not_lt, List.le_iff_lt_or_eq, heq, String.toList_inj]
    simp [List.lt_irrefl]
  case isFalse hne =>
    have hname : a.name ≠ b.name := fun h => hne (by rw [h])
    simp [hne, hname]

theorem le_trans (hab : le a b = true) (hbc : le b c = true) : le a c = true := by
  rw [le_iff] at *
  rcases hab with hab | hab
  · rcases hbc with hbc | hbc
    · refine .inl ?_
      rcases hab with hab | ⟨heq, hab⟩
      · rcases hbc with hbc | ⟨heq, -⟩
        · exact .inl (List.lt_trans hab hbc)
        · exact .inl (heq ▸ hab)
      · rcases hbc with hbc | ⟨heq', hbc⟩
        · exact .inl (heq ▸ hbc)
        · exact .inr ⟨heq.trans heq', List.lt_trans hab hbc⟩
    · rw [Precedes, hbc] at hab
      exact .inl hab
  · rw [Precedes, ← hab] at hbc
    exact hbc

theorem le_total (a b : Completion) : (le a b || le b a) = true := by
  rw [Bool.or_eq_true]
  unfold le
  dsimp only
  split
  case isTrue heq =>
    rw [if_pos heq.symm, decide_eq_true_iff, decide_eq_true_iff, List.not_lt, List.not_lt]
    exact List.le_total _ _
  case isFalse hne =>
    rw [if_neg (Ne.symm hne), decide_eq_true_iff, decide_eq_true_iff]
    exact (List.le_total (Text.toLower a.name.toList) _).imp
      (fun h => (List.le_iff_lt_or_eq.mp h).resolve_right hne)
      (fun h => (List.le_iff_lt_or_eq.mp h).resolve_right (Ne.symm hne))

theorem mem_distinct {s : Symbol} : s ∈ distinct symbols ↔ named? s.simpleName symbols = some s := by
  rw [← Option.mem_toList, ← filter_distinct, List.mem_filter, beq_self_eq_true, and_iff_left rfl]

theorem distinct_nodup (symbols : List Symbol) : ((distinct symbols).map (·.simpleName)).Nodup := by
  induction symbols with
  | nil => exact List.nodup_nil
  | cons s ss ih =>
    rw [distinct, List.map_cons, List.nodup_cons]
    refine ⟨fun hmem => ?_, ih.sublist (List.filter_sublist.map _)⟩
    obtain ⟨s', hs', hname⟩ := List.mem_map.mp hmem
    simpa [hname] using (List.mem_filter.mp hs').2

theorem isMatch_iff {s : Symbol} : isMatch partialName s = true ↔ s.simpleName ≠ "" ∧ Starts partialName s := by
  rw [isMatch, Bool.and_eq_true, List.isPrefixOf_iff_prefix, Starts]
  simp

/-- Whether a symbol may be offered is a question of its name. -/
theorem isMatch_congr {s s' : Symbol} (h : s'.simpleName = s.simpleName) :
    isMatch partialName s' = isMatch partialName s := by
  rw [isMatch, isMatch, h]

theorem named?_filter_of_isMatch {s : Symbol} (hmatch : isMatch partialName s = true) :
    named? s.simpleName (symbols.filter (isMatch partialName)) = named? s.simpleName symbols :=
  named?_filter_isMatch fun _ h => (isMatch_congr h).trans hmatch

/-- The members that are offered, in the order of the candidates. -/
def shown (partialName : Text) (members : List Symbol) : List Symbol :=
  distinct (members.filter (isMatch partialName))

/-- The names in scope that are offered, in the order of the candidates. -/
def unhidden (partialName : Text) (members scope : List Symbol) : List Symbol :=
  (shown partialName scope).filter fun s => !(shown partialName members).any (·.simpleName == s.simpleName)

theorem mem_shown {s : Symbol} : s ∈ shown partialName members ↔
    isMatch partialName s = true ∧ named? s.simpleName members = some s := by
  rw [shown, mem_distinct]
  constructor
  · intro hfound
    have hmatch := (List.mem_filter.mp (List.mem_of_find?_eq_some hfound)).2
    exact ⟨hmatch, (named?_filter_of_isMatch hmatch).symm.trans hfound⟩
  · rintro ⟨hmatch, hfound⟩
    exact (named?_filter_of_isMatch hmatch).trans hfound

theorem mem_unhidden {s : Symbol} : s ∈ unhidden partialName members scope ↔
    isMatch partialName s = true ∧ named? s.simpleName members = none ∧
      named? s.simpleName scope = some s := by
  have hhidden (hmatch : isMatch partialName s = true) :
      (shown partialName members).any (·.simpleName == s.simpleName) =
        (named? s.simpleName members).isSome := by
    rw [shown, any_distinct, named?_filter_of_isMatch hmatch]
  rw [unhidden, List.mem_filter, mem_shown]
  constructor
  · rintro ⟨⟨hmatch, hfound⟩, hvisible⟩
    rw [hhidden hmatch] at hvisible
    exact ⟨hmatch, by simpa using hvisible, hfound⟩
  · rintro ⟨hmatch, hnone, hfound⟩
    exact ⟨⟨hmatch, hfound⟩, by rw [hhidden hmatch, hnone]; rfl⟩

theorem named?_simpleName {name : String} {s : Symbol} (h : named? name symbols = some s) :
    s.simpleName = name := by
  rw [named?] at h
  simpa using List.find?_some h

theorem named?_append (name : String) (members scope : List Symbol) :
    named? name (members ++ scope) = (named? name members).or (named? name scope) :=
  List.find?_append

/-- Of two groups of candidates, the first that has its name is offered. -/
theorem mem_shown_or_unhidden {s : Symbol} :
    s ∈ shown partialName members ∨ s ∈ unhidden partialName members scope ↔
      isMatch partialName s = true ∧ named? s.simpleName (members ++ scope) = some s := by
  rw [mem_shown, mem_unhidden, ← and_or_left, named?_append, Option.or_eq_some_iff]

theorem ofSymbol_names (symbols : List Symbol) :
    (symbols.map ofSymbol).map (·.name) = symbols.map (·.simpleName) := by
  rw [List.map_map]
  rfl

theorem sorted_names_perm (symbols : List Symbol) :
    (((symbols.map ofSymbol).mergeSort le).map (·.name)).Perm (symbols.map (·.simpleName)) := by
  rw [← ofSymbol_names]
  exact (List.mergeSort_perm _ le).map _

theorem shown_nodup (partialName : Text) (members : List Symbol) :
    ((shown partialName members).map (·.simpleName)).Nodup :=
  distinct_nodup _

theorem unhidden_nodup (partialName : Text) (members scope : List Symbol) :
    ((unhidden partialName members scope).map (·.simpleName)).Nodup :=
  (shown_nodup partialName scope).sublist (List.filter_sublist.map _)

/-- Where no name stands twice, sorting makes the list strictly increasing. -/
theorem pairwise_precedes (hnodup : (symbols.map (·.simpleName)).Nodup) :
    ((symbols.map ofSymbol).mergeSort le).Pairwise Precedes := by
  have hsorted : ((symbols.map ofSymbol).mergeSort le).Pairwise (le · ·) :=
    @List.pairwise_mergeSort Completion le (fun _ _ _ => le_trans) le_total (symbols.map ofSymbol)
  have hnames : ((symbols.map ofSymbol).mergeSort le).Pairwise (·.name ≠ ·.name) :=
    List.pairwise_map.mp ((sorted_names_perm symbols).nodup_iff.mpr hnodup)
  refine (hsorted.and hnames).imp fun {a b} h => ?_
  exact (le_iff.mp h.1).resolve_right h.2

end Completion

/-- What is offered of some candidates behind `partialName`, as the items of members and those of names in
scope. -/
structure Candidates.Offers (c : Candidates) (partialName : Text) (memberItems scopeItems : List Completion) :
    Prop where
  names (name : String) : name ∈ (memberItems ++ scopeItems).map (·.name) ↔
    name ≠ "" ∧ Text.toLower partialName <+: Text.toLower name.toList ∧
      ∃ s ∈ c.members ++ c.scope, s.simpleName = name
  once : ((memberItems ++ scopeItems).map (·.name)).Nodup
  first : ∀ item ∈ memberItems ++ scopeItems,
    ((c.members ++ c.scope).find? (·.simpleName == item.name)).map .ofSymbol = some item
  ofMembers : ∀ item ∈ memberItems, ∃ s ∈ c.members, s.simpleName = item.name
  ofScope : ∀ item ∈ scopeItems, ∀ s ∈ c.members, s.simpleName ≠ item.name
  membersSorted : memberItems.Pairwise Completion.Precedes
  scopeSorted : scopeItems.Pairwise Completion.Precedes

namespace Completion

variable {partialName : Text} {item : Completion} {symbols : List Symbol}

theorem mem_sorted {item : Completion} :
    item ∈ (symbols.map ofSymbol).mergeSort le ↔ ∃ s ∈ symbols, ofSymbol s = item := by
  rw [List.mem_mergeSort, List.mem_map]

/-- An item is the first candidate of its name. -/
theorem mem_items {c : Candidates} : item ∈ ((shown partialName c.members).map ofSymbol).mergeSort le ++
      ((unhidden partialName c.members c.scope).map ofSymbol).mergeSort le ↔
    ∃ s, isMatch partialName s = true ∧ named? s.simpleName (c.members ++ c.scope) = some s ∧
      ofSymbol s = item := by
  rw [List.mem_append, mem_sorted, mem_sorted, ← exists_or]
  refine exists_congr fun s => ?_
  rw [← or_and_right, mem_shown_or_unhidden, and_assoc]

/-- The completions are offered of the two groups they are made of. -/
theorem ofGroups_offers (partialName : Text) (c : Candidates) :
    c.Offers partialName (((shown partialName c.members).map ofSymbol).mergeSort le)
      (((unhidden partialName c.members c.scope).map ofSymbol).mergeSort le) where
  names name := by
    simp only [List.mem_map, mem_items]
    constructor
    · rintro ⟨-, ⟨s, hmatch, hfound, rfl⟩, rfl⟩
      obtain ⟨hname, hstarts⟩ := isMatch_iff.mp hmatch
      exact ⟨hname, hstarts, s, List.mem_of_find?_eq_some hfound, rfl⟩
    · rintro ⟨hname, hstarts, s, hs, rfl⟩
      have hfind : (named? s.simpleName (c.members ++ c.scope)).isSome :=
        List.find?_isSome.mpr ⟨s, hs, beq_self_eq_true _⟩
      obtain ⟨first, hfirst⟩ := Option.isSome_iff_exists.mp hfind
      have heq := named?_simpleName hfirst
      refine ⟨_, ⟨first, ?_, heq ▸ hfirst, rfl⟩, heq⟩
      exact (isMatch_congr heq).trans (isMatch_iff.mpr ⟨hname, hstarts⟩)
  once := by
    rw [List.map_append, List.nodup_append']
    refine ⟨(sorted_names_perm _).nodup_iff.mpr (shown_nodup _ _),
      (sorted_names_perm _).nodup_iff.mpr (unhidden_nodup _ _ _), fun name hmember hscope => ?_⟩
    obtain ⟨s, hs, rfl⟩ := List.mem_map.mp ((sorted_names_perm _).mem_iff.mp hmember)
    obtain ⟨s', hs', heq⟩ := List.mem_map.mp ((sorted_names_perm _).mem_iff.mp hscope)
    have hnone := (mem_unhidden.mp hs').2.1
    rw [heq, (mem_shown.mp hs).2] at hnone
    cases hnone
  first item hitem := by
    obtain ⟨s, -, hfound, rfl⟩ := mem_items.mp hitem
    exact congrArg (Option.map ofSymbol) hfound
  ofMembers item hitem := by
    obtain ⟨s, hs, rfl⟩ := mem_sorted.mp hitem
    exact ⟨s, List.mem_of_find?_eq_some (mem_shown.mp hs).2, rfl⟩
  ofScope item hitem s hs heq := by
    obtain ⟨s', hs', rfl⟩ := mem_sorted.mp hitem
    exact List.find?_eq_none.mp (mem_unhidden.mp hs').2.1 s hs (beq_iff_eq.mpr heq)
  membersSorted := pairwise_precedes (shown_nodup partialName c.members)
  scopeSorted := pairwise_precedes (unhidden_nodup partialName c.members c.scope)

end Completion

namespace CheckResult

variable {r : CheckResult}

theorem completions_eq_ofGroups (r : CheckResult) (p : Position) (line : Text) (path : List String)
    (partialName : Text) (stale : Bool) : r.completions p line path partialName stale =
      Completion.ofGroups partialName (r.candidates p line path stale).members
        (r.candidates p line path stale).scope := by
  cases path with
  | nil => rfl
  | cons name names =>
    cases h : r.membersOfPath (name :: names) (r.offsetNear p) <;> simp [completions, candidates, h]

/-- Behind a path nothing is looked for in scope. -/
theorem candidates_scope (r : CheckResult) (p : Position) (line : Text) (name : String)
    (names : List String) (stale : Bool) : (r.candidates p line (name :: names) stale).scope = [] := by
  cases h : r.membersOfPath (name :: names) (r.offsetNear p) <;> simp only [candidates, h]

/-- The bindings that can be named at a place hide what else has their names, the inner ones the outer. -/
theorem named?_visibleAt {name : String} {offset : Nat} {e : ScopeEntry}
    (h : r.bindings.find? (fun e => e.visible.touches offset && e.symbol.simpleName == name) = some e) :
    Completion.named? name (r.visibleAt offset) = some e.symbol := by
  have hscope : (r.scopeAt offset).find? (·.symbol.simpleName == name) = some e := by
    rw [scopeAt, find?_hideShadowed, List.find?_filter, ← h]
    refine List.find?_congr fun e _ => ?_
    simp only [Bool.decide_and, Bool.decide_eq_true]
  rw [visibleAt, Completion.named?_append, Completion.named?, List.find?_map, Function.comp_def, hscope]
  rfl

/-- The completions are the names of the candidates that start as the text in front of the cursor, each
once and for its first candidate. Without a path a name that is no member's stands for its latest binding. -/
theorem completions_offer_candidates (r : CheckResult) (p : Position) (line : Text) (path : List String)
    (partialName : Text) (stale : Bool) :
    ∃ memberItems scopeItems,
      r.completions p line path partialName stale = memberItems ++ scopeItems ∧
        (r.candidates p line path stale).Offers partialName memberItems scopeItems ∧
        ∀ item ∈ scopeItems, ∀ e, r.bindings.find? (fun e =>
            e.visible.touches (r.offsetNear p) && e.symbol.simpleName == item.name) = some e →
          item = .ofSymbol e.symbol := by
  let c := r.candidates p line path stale
  have hoffers := Completion.ofGroups_offers partialName c
  refine ⟨_, _, r.completions_eq_ofGroups p line path partialName stale, hoffers, fun item hitem e he => ?_⟩
  obtain ⟨s, hs, rfl⟩ := Completion.mem_sorted.mp hitem
  obtain ⟨-, -, hfound⟩ := Completion.mem_unhidden.mp hs
  cases path with
  | nil =>
    have hvisible := named?_visibleAt he
    exact congrArg Completion.ofSymbol (Option.some.inj (hfound.symm.trans hvisible))
  | cons name names =>
    have hnone : c.scope = [] := r.candidates_scope p line name names stale
    rw [hnone] at hfound
    cases hfound

end CheckResult

end ScriptAnalyzer

import ScriptAnalyzer.Query.Answer
import ScriptAnalyzer.Proofs.Typing.Accesses
import ScriptAnalyzer.Proofs.Typing.MemberNames

/-!
The completions behind a dot: all members of the receiver, unless the text in front of the dot, read on
its own, stands for something else.
-/

namespace ScriptAnalyzer

open CheckResult

namespace Completion

variable {partialName : Text} {name : String} {members scope : List Symbol}

/-- Whether the name starts as `partialName`, without regard to case. -/
def Starts (partialName : Text) (s : Symbol) : Prop :=
  Text.toLower partialName <+: Text.toLower s.simpleName.toList

/-- The first of the symbols that has this simple name. -/
def named? (name : String) (symbols : List Symbol) : Option Symbol :=
  symbols.find? (·.simpleName == name)

/-- For each of the members that starts as `partialName` its name is listed once. -/
def Lists (shown : List Completion) (partialName : Text) (members : List Symbol) : Prop :=
  ∀ m ∈ members, Starts partialName m →
    shown.filter (·.name == m.simpleName) = ((named? m.simpleName members).map ofSymbol).toList

theorem filter_distinct (name : String) (l : List Symbol) :
    (distinct l).filter (·.simpleName == name) = (named? name l).toList := by
  induction l with
  | nil => rfl
  | cons s l ih =>
    rw [distinct, List.filter_cons, named?, List.find?_cons]
    cases hname : s.simpleName == name with
    | true =>
      simp only [if_true, List.filter_filter, Option.toList_some, List.cons.injEq, true_and]
      refine List.filter_eq_nil_iff.mpr fun s' _ => ?_
      rw [beq_iff_eq] at hname
      simp [hname]
    | false =>
      rw [← named?, ← ih, List.filter_filter]
      simp only [Bool.false_eq_true, if_false]
      refine List.filter_congr fun s' _ => ?_
      cases hname' : s'.simpleName == name with
      | false => rfl
      | true =>
        rw [beq_iff_eq] at hname'
        have hne : name ≠ s.simpleName := fun heq => by simp [heq] at hname
        simp [hname', hne]

theorem named?_filter_isMatch (hname : ∀ s : Symbol, s.simpleName = name → isMatch partialName s = true) :
    named? name (members.filter (isMatch partialName)) = named? name members := by
  rw [named?, List.find?_filter, named?]
  refine List.find?_congr fun s _ => ?_
  cases heq : s.simpleName == name with
  | false => simp
  | true => simp [hname s (beq_iff_eq.mp heq)]

theorem filter_mergeSort {l : List Symbol} {s : Option Symbol}
    (h : l.filter (·.simpleName == name) = s.toList) :
    ((l.map ofSymbol).mergeSort le).filter (·.name == name) = (s.map ofSymbol).toList := by
  have hmap : (l.map ofSymbol).filter (·.name == name) = (s.map ofSymbol).toList := by
    rw [List.filter_map]
    change (l.filter (·.simpleName == name)).map ofSymbol = _
    rw [h]
    cases s <;> rfl
  have hperm := (List.mergeSort_perm (l.map ofSymbol) le).filter (·.name == name)
  rw [hmap] at hperm
  cases s with
  | none => exact hperm.eq_nil
  | some s => exact List.perm_singleton.mp hperm

theorem any_distinct (name : String) (l : List Symbol) :
    (distinct l).any (·.simpleName == name) = (named? name l).isSome := by
  have hfilter := filter_distinct name l
  cases h : named? name l with
  | none =>
    rw [h] at hfilter
    exact List.any_eq_false.mpr fun s hs => List.filter_eq_nil_iff.mp hfilter s hs
  | some s =>
    have hs : s ∈ (distinct l).filter (·.simpleName == name) := by simp [hfilter, h]
    exact List.any_eq_true.mpr ⟨s, List.mem_filter.mp hs⟩

/-- A name is listed for the first member that has it, else for the first symbol in scope. -/
theorem filter_ofGroups
    (hname : ∀ s : Symbol, s.simpleName = name → isMatch partialName s = true) :
    (ofGroups partialName members scope).filter (·.name == name) =
      (((named? name members).or (named? name scope)).map ofSymbol).toList := by
  have hmembers : (distinct (members.filter (isMatch partialName))).filter (·.simpleName == name) =
      (named? name members).toList := by
    rw [filter_distinct, named?_filter_isMatch hname]
  have hscope : ((distinct (scope.filter (isMatch partialName))).filter fun s =>
      !(distinct (members.filter (isMatch partialName))).any (·.simpleName == s.simpleName)).filter
        (·.simpleName == name) =
      (if (named? name members).isSome then none else named? name scope).toList := by
    have hhidden (s : Symbol) (hs : s.simpleName = name) :
        (distinct (members.filter (isMatch partialName))).any (·.simpleName == s.simpleName) =
          (named? name members).isSome := by
      rw [hs, any_distinct, named?_filter_isMatch hname]
    rw [List.filter_filter]
    cases hfound : (named? name members).isSome with
    | true =>
      refine List.filter_eq_nil_iff.mpr fun s _ => ?_
      rw [Bool.and_eq_true, beq_iff_eq]
      rintro ⟨hs, hvisible⟩
      simp [hhidden s hs, hfound] at hvisible
    | false =>
      rw [← @named?_filter_isMatch _ _ scope hname, if_neg Bool.false_ne_true, ← filter_distinct]
      refine List.filter_congr fun s _ => ?_
      cases hs : s.simpleName == name with
      | false => rfl
      | true => simp [hhidden s (beq_iff_eq.mp hs), hfound]
  rw [ofGroups, List.filter_append, filter_mergeSort hmembers, filter_mergeSort hscope]
  cases named? name members <;> simp

theorem isMatch_of_starts {s s' : Symbol} (hstarts : Starts partialName s) (hname : IsSimpleName s.simpleName)
    (heq : s'.simpleName = s.simpleName) : isMatch partialName s' = true := by
  rw [isMatch, heq]
  have hnonempty : s.simpleName.toList.isEmpty = false := by
    rw [List.isEmpty_eq_false_iff]
    exact hname.1
  simpa [hnonempty] using List.isPrefixOf_iff_prefix.mpr hstarts

/-- The members that are offered list those of the receiver if they agree with them on all names. -/
theorem lists_ofGroups_iff {received : List Symbol} (hsimple : ∀ m ∈ received, IsSimpleName m.simpleName) :
    Lists (ofGroups partialName members scope) partialName received ↔
      ∀ m ∈ received, Starts partialName m →
        ((named? m.simpleName members).or (named? m.simpleName scope)).map ofSymbol =
          (named? m.simpleName received).map ofSymbol := by
  refine forall_congr' fun m => forall_congr' fun hm => forall_congr' fun hstarts => ?_
  rw [filter_ofGroups fun s hs => isMatch_of_starts hstarts (hsimple m hm) hs]
  exact ⟨fun h => by simpa using congrArg List.head? h, fun h => by rw [h]⟩

end Completion

namespace CheckResult

variable {r : CheckResult}

/-- Sites that stand one behind the other do not cover the same place. -/
theorem memberSiteAt?_of_covers (hpairwise : r.members.Pairwise MemberSite.Before)
    (hdots : ∀ m ∈ r.members, m.dot.start < m.dot.stop) {site : MemberSite} (hsite : site ∈ r.members)
    {offset : Nat} (hcovers : site.covers offset = true) : r.memberSiteAt? offset = some site := by
  have hcovering : (r.members.filter (·.covers offset)).Pairwise fun _ _ => False := by
    refine (hpairwise.filter (·.covers offset)).imp_of_mem fun {m m'} hm hm' hbefore => ?_
    obtain ⟨-, hcovers⟩ := List.mem_filter.mp hm
    obtain ⟨hmem', hcovers'⟩ := List.mem_filter.mp hm'
    have hdot := hdots m' hmem'
    have hbehind : m'.dot.stop ≤ offset := by
      unfold MemberSite.covers at hcovers'
      split at hcovers' <;> simp at hcovers' <;> omega
    have hdot' : m'.dot ∈ m'.places := List.mem_cons_self
    unfold MemberSite.covers at hcovers
    split at hcovers
    case h_1 name hname =>
      have hplace : name ∈ m.places := by simp [MemberSite.places, hname]
      have := hbefore name hplace m'.dot hdot'
      simp [Span.touches] at hcovers
      omega
    case h_2 =>
      have := hbefore m.dot List.mem_cons_self m'.dot hdot'
      simp at hcovers
      omega
  have hmem : site ∈ r.members.filter (·.covers offset) := List.mem_filter.mpr ⟨hsite, hcovers⟩
  rw [memberSiteAt?]
  cases hlist : r.members.filter (·.covers offset) with
  | nil => simp [hlist] at hmem
  | cons m ms =>
    cases ms with
    | nil =>
      rw [hlist] at hmem
      exact List.mem_singleton.mp hmem ▸ rfl
    | cons m' ms =>
      rw [hlist] at hcovering
      exact ((List.pairwise_cons.mp hcovering).1 m' List.mem_cons_self).elim

end CheckResult

theorem Member.symbol_simpleName {m : Member} (h : '.' ∉ m.name.toList) (owner : String) :
    (m.symbol owner).simpleName = m.name := by
  rw [Symbol.simpleName, m.symbol_name, qualify]
  split
  · rw [lastSegment_of_undotted h, String.ofList_toList]
  · rw [String.toList_append, String.toList_append, List.append_assoc,
      show ".".toList ++ m.name.toList = '.' :: m.name.toList from rfl, lastSegment_append _ h,
      String.ofList_toList]

theorem Entities.members_simpleNames {es : Entities}
    (hes : ∀ e ∈ es.all, ∀ m ∈ e.members, IsSimpleName m.name) (t : Ty) :
    ∀ m ∈ es.membersOfType t, IsSimpleName (m.2.symbol m.1).simpleName := by
  intro m hm
  have hname : IsSimpleName m.2.name := by
    obtain ⟨e, he, hmember⟩ | ⟨-, hcommon⟩ := mem_membersOfType hm
    · exact hes e (mem_of_find? he).1 m.2 hmember
    · exact Catalog.object_simpleNames m.2 hcommon
  rw [Member.symbol_simpleName hname.2]
  exact hname

/-- A text that the checker was given has at most one member access that a cursor completes. -/
theorem checkText_memberSiteAt? (path : Path) (text : Text) (project : ProjectOptions)
    (options : Option WarningOptions) {site : MemberSite} {offset : Nat}
    (hsite : site ∈ (checkText path text project options).members) (hcovers : site.covers offset = true) :
    (checkText path text project options).memberSiteAt? offset = some site := by
  let r := checkText path text project options
  let s := r.file.endState r.context
  obtain ⟨hpairwise, hdots⟩ :=
    SyntaxFile.members_pairwise path text r.context.kind r.context.defines r.context
  have hplaces (m : MemberSite) : (s.finalMember m).dot = m.dot ∧ (s.finalMember m).places = m.places := by
    unfold CheckerState.finalMember
    split <;> exact ⟨rfl, rfl⟩
  have hmembers : r.members = s.records.members.reverse.map s.finalMember :=
    congrArg CheckResult.members (checkText_eq path text project options)
  refine memberSiteAt?_of_covers ?_ ?_ hsite hcovers
  · rw [hmembers, List.pairwise_map]
    refine hpairwise.imp fun {m m'} hbefore => ?_
    rw [MemberSite.Before, (hplaces m).2, (hplaces m').2]
    exact hbefore
  · rw [hmembers]
    refine List.forall_mem_map.mpr fun m hm => ?_
    rw [(hplaces m).1]
    exact hdots m (List.mem_reverse.mp hm)

/-- Where the receiver of the access has a type, the completions list its members if the path does not
stand for something with other members. -/
theorem CheckResult.lists_completions_iff {r : CheckResult} {p : Position} {line : Text}
    {path : List String} {partialName : Text} {received : List Symbol}
    (hsimple : ∀ m ∈ received, IsSimpleName m.simpleName) (hstale : r.isStale p line = false)
    (hreceived : r.receiverMembers (r.offsetNear p) = received) :
    let guessed := r.membersOfPath path (r.offsetNear p)
    Completion.Lists (r.completions p line path partialName false) partialName received ↔
      path = [] ∨ guessed = [] ∨ ∀ m ∈ received, Completion.Starts partialName m →
        (Completion.named? m.simpleName guessed).map Completion.ofSymbol =
          (Completion.named? m.simpleName received).map Completion.ofSymbol := by
  intro guessed
  have hfind (m : Symbol) (hm : m ∈ received) : (Completion.named? m.simpleName received).isSome :=
    List.find?_isSome.mpr ⟨m, hm, beq_self_eq_true _⟩
  rw [completions, hstale, Bool.or_false, if_neg Bool.false_ne_true, hreceived]
  dsimp only
  split
  case isTrue hempty =>
    rw [Completion.lists_ofGroups_iff hsimple]
    refine iff_of_true (fun m hm _ => ?_) (.inl (List.isEmpty_iff.mp hempty))
    rw [Option.or_of_isSome (hfind m hm)]
  case isFalse hnonempty =>
    have hpath : path ≠ [] := fun h => hnonempty (List.isEmpty_iff.mpr h)
    rw [Completion.lists_ofGroups_iff hsimple]
    split
    case isTrue hempty =>
      refine iff_of_true (fun m hm _ => ?_) (.inr (.inl (List.isEmpty_iff.mp hempty)))
      rw [Option.or_of_isSome (hfind m hm)]
    case isFalse hmembers =>
      have hguessed : guessed ≠ [] := fun h => hmembers (List.isEmpty_iff.mpr h)
      simp only [hpath, hguessed, false_or]
      refine forall_congr' fun m => forall_congr' fun _ => forall_congr' fun _ => ?_
      rw [show Completion.named? m.simpleName [] = none from rfl, Option.or_none]

/-- Behind the dot of a value all its members are offered, unless the dotted text in front of the cursor
stands for something that has members but not all of these. -/
theorem checkText_lists_members_iff (path : Path) (text : Text) (project : ProjectOptions)
    (options : Option WarningOptions) {site : MemberSite} {t : Ty} {p : Position} {line : Text}
    (hsite : site ∈ (checkText path text project options).members) (hvalue : site.receiver = .value t)
    (hline : text.line? p.line = some line)
    (hcovers : site.covers ((checkText path text project options).offsetNear p) = true) :
    let r := checkText path text project options
    let typed := completionPathAt line p.character
    let guessed := r.membersOfPath typed.1 (r.offsetNear p)
    Completion.Lists (r.completions p line typed.1 typed.2 false) typed.2 (r.membersOfType t) ↔
      typed.1 = [] ∨ guessed = [] ∨ ∀ m ∈ r.membersOfType t, Completion.Starts typed.2 m →
        (Completion.named? m.simpleName guessed).map Completion.ofSymbol =
          (Completion.named? m.simpleName (r.membersOfType t)).map Completion.ofSymbol := by
  intro r typed guessed
  have hnamed := SyntaxFile.endState_named path text r.context.kind r.context.defines r.context
  have hentities : r.entities = (r.file.endState r.context).entities :=
    congrArg CheckResult.entities (checkText_eq path text project options)
  refine lists_completions_iff ?_ (bne_eq_false_iff_eq.mpr hline) ?_
  · refine List.forall_mem_map.mpr fun m hm => ?_
    exact Entities.members_simpleNames hnamed.members t m (hentities ▸ hm)
  · rw [receiverMembers, checkText_memberSiteAt? path text project options hsite hcovers,
      Option.elim_some, hvalue]
    rfl

/-- The members of a string, behind its name. -/
theorem stringName_lists_members :
    let r := checkText ⟨"names.glx"⟩ "let x = \"abc\"\nlet y = x.Le".toList {} none
    Completion.Lists (r.completions ⟨1, 12⟩ "let y = x.Le".toList ["x"] "Le".toList false) "Le".toList
      (r.membersOfType .string) := by
  intro r
  have hsite : r.members[0]? = some ⟨⟨23, 24⟩, some ⟨24, 26⟩, ⟨22, 26⟩, .value .string⟩ := by
    decide +kernel
  have htyped : completionPathAt "let y = x.Le".toList 12 = (["x"], "Le".toList) := by decide +kernel
  have hguessed : r.membersOfPath ["x"] (r.offsetNear ⟨1, 12⟩) = r.membersOfType .string := by
    decide +kernel
  have hline : Text.line? "let x = \"abc\"\nlet y = x.Le".toList 1 = some "let y = x.Le".toList := by
    decide +kernel
  have hlists := checkText_lists_members_iff ⟨"names.glx"⟩ "let x = \"abc\"\nlet y = x.Le".toList {} none
    (p := ⟨1, 12⟩) (List.mem_of_getElem? hsite) rfl hline (by decide +kernel)
  rw [htyped] at hlists
  refine hlists.mpr (.inr (.inr fun m _ _ => ?_))
  exact congrArg (fun symbols => (Completion.named? m.simpleName symbols).map Completion.ofSymbol) hguessed

/-- Behind the end of the last line its own binding is in scope. The text in front of the cursor then
stands for an integer, and the member of the string is not offered. -/
theorem reboundName_hides_member :
    let r := checkText ⟨"names.glx"⟩ "let x = \"abc\"\nlet x = x.Length".toList {} none
    r.hasErrors = false ∧ (∃ site ∈ r.members, site.receiver = .value .string ∧
      site.covers (r.offsetNear ⟨1, 16⟩) = true) ∧
      completionPathAt "let x = x.Length".toList 16 = (["x"], "Length".toList) ∧
      ¬Completion.Lists (r.completions ⟨1, 16⟩ "let x = x.Length".toList ["x"] "Length".toList false)
        "Length".toList (r.membersOfType .string) := by
  intro r
  refine ⟨by decide +kernel, by decide +kernel, by decide +kernel, fun hlists => ?_⟩
  have hnone : r.completions ⟨1, 16⟩ "let x = x.Length".toList ["x"] "Length".toList false = [] := by
    decide +kernel
  have hmember : ∃ m ∈ r.membersOfType .string, m.simpleName = "Length" := by decide +kernel
  obtain ⟨m, hm, hname⟩ := hmember
  have hlength := hlists m hm (by rw [Completion.Starts, hname])
  rw [hnone, List.filter_nil] at hlength
  have hfind : (Completion.named? m.simpleName (r.membersOfType .string)).isSome :=
    List.find?_isSome.mpr ⟨m, hm, beq_self_eq_true _⟩
  obtain ⟨first, hfirst⟩ := Option.isSome_iff_exists.mp hfind
  rw [hfirst] at hlength
  cases hlength

end ScriptAnalyzer

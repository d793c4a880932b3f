import ScriptAnalyzer.Query.Answer
import ScriptAnalyzer.Proofs.Typing.Provenance

/-!
A binding whose type is final at the end of the binding shows the same signature everywhere.
-/

namespace ScriptAnalyzer

open CheckerState

namespace Entities

variable {es : Entities} {e : Entity}

theorem mem_of_distinct {l : List Entity} (h : e ∈ distinct l) : e ∈ l := by
  induction l with
  | nil => cases h
  | cons e' l ih =>
    rcases List.mem_cons.mp h with rfl | h
    · exact List.mem_cons_self
    · exact List.mem_cons_of_mem _ (ih (List.mem_filter.mp h).1)

theorem mem_of_children {path : String} (h : e ∈ es.children path) : e ∈ es.all :=
  (List.mem_filter.mp (mem_of_distinct h)).1

theorem mem_of_staticMember {path name : String} {m : Member}
    (h : (es.find? path).bind (·.staticMember? name) = some m) : es.Knows (m.symbol path) := by
  obtain ⟨e, he, hm⟩ := Option.bind_eq_some_iff.mp h
  obtain ⟨hmem, rfl⟩ := mem_of_find? he
  exact .member hmem (Entity.mem_of_staticMember? hm).1

end Entities

/-- The symbol of a value or a method. -/
def PathMeaning.symbol? : PathMeaning → Option Symbol
  | entity _ => none
  | value _ symbol | method symbol => some symbol

namespace Completion

variable {symbol : Symbol}

theorem mem_of_distinct {l : List Symbol} (h : symbol ∈ distinct l) : symbol ∈ l := by
  induction l with
  | nil => cases h
  | cons symbol' l ih =>
    rcases List.mem_cons.mp h with rfl | h
    · exact List.mem_cons_self
    · exact List.mem_cons_of_mem _ (ih (List.mem_filter.mp h).1)

theorem symbol_of_ofGroups {partialName : Text} {members scope : List Symbol} {c : Completion}
    (h : c ∈ ofGroups partialName members scope) :
    ∃ symbol, (symbol ∈ members ∨ symbol ∈ scope) ∧ c = .ofSymbol symbol := by
  rcases List.mem_append.mp h with h | h
  · obtain ⟨symbol, hsymbol, rfl⟩ := List.mem_map.mp (List.mem_mergeSort.mp h)
    exact ⟨symbol, .inl (List.mem_filter.mp (mem_of_distinct hsymbol)).1, rfl⟩
  · obtain ⟨symbol, hsymbol, rfl⟩ := List.mem_map.mp (List.mem_mergeSort.mp h)
    have hscope := mem_of_distinct (List.mem_filter.mp hsymbol).1
    exact ⟨symbol, .inr (List.mem_filter.mp hscope).1, rfl⟩

end Completion

namespace CheckResult

variable {r : CheckResult}

/-- The symbol of a binding, of an entity or of a member. -/
def Holds (r : CheckResult) (symbol : Symbol) : Prop :=
  (∃ e ∈ r.bindings, e.symbol = symbol) ∨ r.entities.Knows symbol

theorem knows_of_contents {path : String} {symbol : Symbol} (h : symbol ∈ r.contents path) :
    r.entities.Knows symbol := by
  rcases List.mem_append.mp h with h | h
  · obtain ⟨m, hm, rfl⟩ := List.mem_map.mp h
    have hmember := (List.mem_filter.mp hm).1
    cases he : r.entities.find? path with
    | none => rw [he] at hmember; cases hmember
    | some e =>
      rw [he] at hmember
      obtain ⟨hmem, rfl⟩ := Entities.mem_of_find? he
      exact .member hmem hmember
  · obtain ⟨e, he, rfl⟩ := List.mem_map.mp h
    exact .entity (Entities.mem_of_children he)

theorem knows_of_membersOfType {t : Ty} {symbol : Symbol} (h : symbol ∈ r.membersOfType t) :
    r.entities.Knows symbol := by
  obtain ⟨m, hm, rfl⟩ := List.mem_map.mp h
  exact Checker.knows_of_membersOfType hm

theorem mem_of_hideShadowed {entries : List ScopeEntry} {e : ScopeEntry} (h : e ∈ hideShadowed entries) :
    e ∈ entries := by
  induction entries with
  | nil => cases h
  | cons e' es ih =>
    rcases List.mem_cons.mp h with rfl | h
    · exact List.mem_cons_self
    · exact List.mem_cons_of_mem _ (ih (List.mem_filter.mp h).1)

theorem mem_of_scopeAt {offset : Nat} {e : ScopeEntry} (h : e ∈ r.scopeAt offset) : e ∈ r.bindings :=
  (List.mem_filter.mp (mem_of_hideShadowed h)).1

theorem holds_of_follow {names : List String} {t : Ty} {symbol : Symbol} {meaning : PathMeaning}
    (hsymbol : r.Holds symbol) (h : r.follow? t symbol names = some meaning) :
    ∀ s ∈ meaning.symbol?, r.Holds s := by
  induction names generalizing t symbol with
  | nil =>
    obtain rfl := Option.some.inj h
    exact fun s hs => Option.some.inj hs ▸ hsymbol
  | cons name names ih =>
    rw [follow?] at h
    obtain ⟨⟨owner, m⟩, hm, h⟩ := Option.bind_eq_some_iff.mp h
    have hmember : r.Holds (m.symbol owner) :=
      .inr (Checker.knows_of_membersOfType (List.mem_of_find?_eq_some hm))
    dsimp only at h
    split at h
    · split at h
      · obtain rfl := Option.some.inj h
        exact fun s hs => Option.some.inj hs ▸ hmember
      · cases h
    · exact ih hmember h
    · exact ih hmember h
    · exact ih hmember h

theorem holds_of_insideEntity {path : String} {names : List String} {meaning : PathMeaning}
    (h : r.insideEntity? path names = some meaning) : ∀ s ∈ meaning.symbol?, r.Holds s := by
  cases names with
  | nil =>
    obtain rfl := Option.some.inj h
    exact nofun
  | cons name names =>
    rw [insideEntity?] at h
    obtain ⟨e, he, h⟩ := Option.bind_eq_some_iff.mp h
    obtain ⟨m, hm, h⟩ := Option.bind_eq_some_iff.mp h
    have hmember : r.Holds (m.symbol path) :=
      .inr (Entities.mem_of_staticMember (Option.bind_eq_some_iff.mpr ⟨e, he, hm⟩))
    split at h
    · split at h
      · obtain rfl := Option.some.inj h
        exact fun s hs => Option.some.inj hs ▸ hmember
      · cases h
    · exact holds_of_follow hmember h
    · exact holds_of_follow hmember h
    · exact holds_of_follow hmember h

theorem holds_of_pathMeaning {segments : List String} {offset : Nat} {meaning : PathMeaning}
    (h : r.pathMeaning? segments offset = some meaning) : ∀ s ∈ meaning.symbol?, r.Holds s := by
  cases segments with
  | nil => cases h
  | cons head rest =>
    rw [pathMeaning?] at h
    split at h
    case h_1 entry hentry =>
      exact holds_of_follow (.inl ⟨entry, mem_of_scopeAt (List.mem_of_find?_eq_some hentry), rfl⟩) h
    case h_2 =>
      obtain ⟨⟨path, rest⟩, -, h⟩ := Option.bind_eq_some_iff.mp h
      exact holds_of_insideEntity h

theorem holds_of_resolvePath {segments : List String} {offset : Nat} {symbol : Symbol}
    (h : r.resolvePath? segments offset = some symbol) : r.Holds symbol := by
  unfold resolvePath? at h
  split at h
  case h_1 path _ =>
    obtain ⟨e, he, rfl⟩ := Option.map_eq_some_iff.mp h
    exact .inr (.entity (Entities.mem_of_find? he).1)
  case h_2 hmeaning => exact holds_of_pathMeaning hmeaning symbol h
  case h_3 hmeaning => exact holds_of_pathMeaning hmeaning symbol h
  case h_4 => cases h

theorem knows_of_membersOfPath {segments : List String} {offset : Nat} {symbol : Symbol}
    (h : symbol ∈ r.membersOfPath segments offset) : r.entities.Knows symbol := by
  unfold membersOfPath at h
  split at h
  · exact knows_of_contents h
  · exact knows_of_membersOfType h
  · cases h
  · cases h

theorem knows_of_membersOfReceiver {receiver : Receiver} {symbol : Symbol}
    (h : symbol ∈ r.membersOfReceiver receiver) : r.entities.Knows symbol := by
  cases receiver with
  | value t => exact knows_of_membersOfType h
  | entity path => exact knows_of_contents h

theorem holds_of_visibleAt {offset : Nat} {symbol : Symbol} (h : symbol ∈ r.visibleAt offset) :
    r.Holds symbol := by
  rcases List.mem_append.mp h with h | h
  · obtain ⟨e, he, rfl⟩ := List.mem_map.mp h
    exact .inl ⟨e, mem_of_scopeAt he, rfl⟩
  · obtain ⟨path, -, h⟩ := List.mem_flatMap.mp h
    split at h
    · obtain ⟨e, he, rfl⟩ := List.mem_map.mp h
      exact .inr (.entity (Entities.mem_of_children he))
    · exact .inr (knows_of_contents h)

/-- The symbols that the result shows at the names in the text and in the answers to queries. -/
inductive Shows (r : CheckResult) : Symbol → Prop
  | occurrence {o : Occurrence} : o ∈ r.occurrences → Shows r o.symbol
  | path {segments : List String} {offset : Nat} {symbol : Symbol} :
    r.resolvePath? segments offset = some symbol → Shows r symbol
  | inPath {segments : List String} {offset : Nat} {symbol : Symbol} :
    symbol ∈ r.membersOfPath segments offset → Shows r symbol
  | ofReceiver {receiver : Receiver} {symbol : Symbol} :
    symbol ∈ r.membersOfReceiver receiver → Shows r symbol
  | visible {offset : Nat} {symbol : Symbol} : symbol ∈ r.visibleAt offset → Shows r symbol

theorem symbol_of_completion {p : Position} {line : Text} {path : List String} {partialName : Text}
    {stale : Bool} {c : Completion} (h : c ∈ r.completions p line path partialName stale) :
    ∃ symbol, r.Shows symbol ∧ c = .ofSymbol symbol := by
  have hreceived : ∀ symbol ∈ (if r.isStale p line || stale then [] else r.receiverMembers (r.offsetNear p)),
      r.Shows symbol := by
    intro symbol hsymbol
    split at hsymbol
    · cases hsymbol
    · unfold receiverMembers at hsymbol
      cases hsite : r.memberSiteAt? (r.offsetNear p) with
      | none => rw [hsite] at hsymbol; cases hsymbol
      | some site =>
        rw [hsite] at hsymbol
        exact .ofReceiver hsymbol
  unfold completions at h
  dsimp only at h
  split at h
  · obtain ⟨symbol, hsymbol, rfl⟩ := Completion.symbol_of_ofGroups h
    exact ⟨symbol, hsymbol.elim (hreceived symbol) .visible, rfl⟩
  · obtain ⟨symbol, hsymbol | hsymbol, rfl⟩ := Completion.symbol_of_ofGroups h
    · refine ⟨symbol, ?_, rfl⟩
      split at hsymbol
      · exact hreceived symbol hsymbol
      · exact .inPath hsymbol
    · cases hsymbol

end CheckResult

namespace CheckerState

variable {s : CheckerState}

/-- At the end of the file the type of the binder reads as at the end of the binding. -/
def Settled (s : CheckerState) (b : Binder) : Prop :=
  (s.store.zonk b.scheme.type).render = b.scheme.type.render

theorem binderSymbol_signature (b : Binder) :
    (s.binderSymbol b).signature = (s.store.zonk b.scheme.type).render := by
  unfold binderSymbol
  dsimp only
  split <;> rfl

/-- A fixed symbol at the place of a binder shows the type that the binder had at the end of the
binding. -/
theorem Traced.signature_at {K M : Span → Prop} (hnodup : s.declaredAt.Nodup) (hlocated : s.Located)
    (hK : ∀ span, K span → ∃ symbol, (span, .fixed symbol) ∈ s.records.declarations) {i : Nat}
    {b : Binder} (hb : s.binders[i]? = some b) {symbol : Symbol} (htraces : Traces K M s.cores symbol)
    (hspan : symbol.span = some b.span) : symbol.signature = b.scheme.type.render := by
  rcases htraces _ hspan with hfixed | ⟨-, core, hcore, hplace, hsignature⟩
  · obtain ⟨symbol', hdeclared⟩ := hK _ hfixed
    cases target_at_binder hnodup hlocated hb hdeclared
  · obtain ⟨b', hb', rfl⟩ := List.mem_map.mp hcore
    obtain ⟨j, hj⟩ := List.mem_iff_getElem?.mp hb'
    rw [Array.getElem?_toList] at hj
    obtain rfl := binder_at hnodup hlocated hb hj hplace
    exact hsignature

end CheckerState

section

variable {s : CheckerState} {file : SyntaxFile} {context : Context} {options : WarningOptions}
variable {symbol : Symbol}

theorem CheckerState.symbol_of_target {target : Target} (h : s.targetSymbol? target = some symbol) :
    (∃ (i : Nat) (b : Binder), s.binders[i]? = some b ∧ symbol = s.binderSymbol b) ∨ target = .fixed symbol := by
  cases target with
  | binder i =>
    obtain ⟨b, hb, rfl⟩ := Option.map_eq_some_iff.mp h
    exact .inl ⟨i, b, hb, rfl⟩
  | fixed symbol' => exact .inr (congrArg Target.fixed (Option.some.inj h))

/-- What the result shows are binders as they are at the end of the file, and symbols fixed before. -/
theorem CheckerState.sources_of_shows {diagnostics : List Diagnostic}
    (h : { s.result file context options with diagnostics }.Shows symbol) :
    (∃ (i : Nat) (b : Binder), s.binders[i]? = some b ∧ symbol = s.binderSymbol b) ∨
      s.entities.Knows symbol ∨ ∃ m ∈ s.records.mentions, m.target = .fixed symbol := by
  have hholds (h : { s.result file context options with diagnostics }.Holds symbol) :
      (∃ (i : Nat) (b : Binder), s.binders[i]? = some b ∧ symbol = s.binderSymbol b) ∨ s.entities.Knows symbol := by
    refine h.imp_left fun ⟨entry, hentry, hsymbol⟩ => ?_
    obtain ⟨v, -, hv⟩ := List.mem_filterMap.mp hentry
    obtain ⟨b, hb, rfl⟩ := Option.map_eq_some_iff.mp hv
    exact ⟨_, b, hb, hsymbol.symm⟩
  cases h with
  | occurrence ho =>
    obtain ⟨m, hm, heq⟩ := List.mem_filterMap.mp ho
    obtain ⟨symbol, hsymbol, rfl⟩ := Option.map_eq_some_iff.mp heq
    have hm : m ∈ s.records.mentions := List.mem_reverse.mp hm
    exact (symbol_of_target hsymbol).imp_right fun hfixed => .inr ⟨m, hm, hfixed⟩
  | path h => exact (hholds (CheckResult.holds_of_resolvePath h)).imp_right .inl
  | inPath h => exact .inr (.inl (CheckResult.knows_of_membersOfPath h))
  | ofReceiver h => exact .inr (.inl (CheckResult.knows_of_membersOfReceiver h))
  | visible h => exact (hholds (CheckResult.holds_of_visibleAt h)).imp_right .inl

end

namespace SyntaxFile

variable (path : Path) (text : Text) (context : Context) (options : WarningOptions)

/-- At the place of a binder the table has its symbol alone. -/
theorem mem_symbols_iff {i : Nat} {b : Binder} {symbol : Symbol} :
    let f := SyntaxFile.parse path text context.kind context.defines
    let s := f.endState context
    s.binders[i]? = some b →
      ((b.span, symbol) ∈ (f.check context options).symbols ↔ symbol = s.binderSymbol b) := by
  intro f s hb
  rw [check_eq]
  obtain ⟨hnodup, hlocated⟩ := declaredAt_nodup path text context.kind context.defines context
  have hsymbol : s.targetSymbol? (.binder i) = some (s.binderSymbol b) := by
    rw [targetSymbol?, hb]
    rfl
  constructor
  · intro hmem
    obtain ⟨⟨span, target⟩, hd, heq⟩ := List.mem_filterMap.mp hmem
    obtain ⟨symbol', hsymbol', heq⟩ := Option.map_eq_some_iff.mp heq
    obtain ⟨rfl, rfl⟩ := Prod.mk.inj heq
    obtain rfl := target_at_binder hnodup hlocated hb (List.mem_reverse.mp hd)
    exact Option.some.inj (hsymbol'.symm.trans hsymbol)
  · rintro rfl
    have hplace : s.places[i]? = some b.span := by
      rw [places, List.getElem?_map, Array.getElem?_toList, hb]
      rfl
    refine List.mem_filterMap.mpr ⟨_, List.mem_reverse.mpr (hlocated i _ hplace), ?_⟩
    exact Option.map_eq_some_iff.mpr ⟨_, hsymbol, rfl⟩

/-- What is shown of a binder has the signature that the table has, or shows the type that the binder had
at the end of its binding, as every member that stands for the binder does. -/
theorem signature_at_binder {i : Nat} {b : Binder} {symbol : Symbol} :
    let f := SyntaxFile.parse path text context.kind context.defines
    let s := f.endState context
    let r := f.check context options
    s.binders[i]? = some b → symbol.span = some b.span →
      (r.entities.Knows symbol → symbol.signature = b.scheme.type.render) ∧
        (r.Shows symbol → symbol.signature = (s.binderSymbol b).signature ∨
          symbol.signature = b.scheme.type.render) := by
  intro f s r hb hspan
  obtain ⟨hnodup, hlocated⟩ := declaredAt_nodup path text context.kind context.defines context
  have htraced := f.endState_traced context
  have hfixed (htraces : Traces (f.DeclaresAt context) f.BindsAt s.cores symbol) : symbol.signature = b.scheme.type.render :=
    Traced.signature_at hnodup hlocated (fun _ => id) hb htraces hspan
  have hr : r = { s.result f context options with diagnostics := r.diagnostics } := f.check_eq context options
  have hentities : r.entities = s.entities := congrArg CheckResult.entities hr
  refine ⟨fun hknows => hfixed (htraced.known symbol (hentities ▸ hknows)), fun hshows => ?_⟩
  rw [hr] at hshows
  rcases CheckerState.sources_of_shows hshows with ⟨j, b', hb', rfl⟩ | hknows | ⟨m, hm, htarget⟩
  · rw [CheckerState.binderSymbol_span] at hspan
    obtain rfl := binder_at hnodup hlocated hb hb' (Option.some.inj hspan)
    exact .inl rfl
  · exact .inr (hfixed (htraced.known symbol hknows))
  · exact .inr (hfixed (htraced.fixed m hm symbol htarget))

end SyntaxFile

/-- The table has one symbol of a binding. If the binding is settled, then every symbol of it that the
result shows has the same signature; if not, then the contents of a module show another one. -/
theorem checkText_binding_signatures (path : Path) (text : Text) (project : ProjectOptions)
    (options : Option WarningOptions) {i : Nat} {b : Binder}
    (hb : ((checkText path text project options).file.endState
      (checkText path text project options).context).binders[i]? = some b) :
    let r := checkText path text project options
    let s := r.file.endState r.context
    (∀ symbol, (b.span, symbol) ∈ r.symbols ↔ symbol = s.binderSymbol b) ∧
      (s.Settled b → ∀ symbol, r.Shows symbol → symbol.span = some b.span →
        symbol.signature = (s.binderSymbol b).signature) ∧
      (¬s.Settled b → ∀ owner, ∀ symbol ∈ r.contents owner, symbol.span = some b.span →
        symbol.signature ≠ (s.binderSymbol b).signature) := by
  intro r s
  have hsignature {symbol : Symbol} (hspan : symbol.span = some b.span) :=
    SyntaxFile.signature_at_binder path text r.context (options.getD r.context.warningOptions) hb hspan
  refine ⟨fun _ => SyntaxFile.mem_symbols_iff path text _ _ hb, fun hsettled => ?_, fun hopen => ?_⟩
  · intro symbol hshows hspan
    refine ((hsignature hspan).2 hshows).elim id fun hdeclared => ?_
    rw [hdeclared, CheckerState.binderSymbol_signature, hsettled]
  · intro owner symbol hcontents hspan heq
    have hdeclared := (hsignature hspan).1 (CheckResult.knows_of_contents hcontents)
    refine hopen ?_
    rw [CheckerState.Settled, ← hdeclared, heq, CheckerState.binderSymbol_signature]

/-- A binding that is settled, used through the path of its module. -/
theorem settledValue_shows_type :
    let r := checkText ⟨"settled.glx"⟩ "module M\nlet x = 1\nlet y = M.x".toList {} none
    ∃ symbol, (⟨13, 14⟩, symbol) ∈ r.symbols ∧
      ∀ o ∈ r.occurrences, o.symbol.span = some ⟨13, 14⟩ → o.symbol.signature = symbol.signature := by
  intro r
  let s := r.file.endState r.context
  have hshown : s.binders[0]?.map (fun b =>
      (b.span, (s.store.zonk b.scheme.type).render, b.scheme.type.render)) =
      some (⟨13, 14⟩, "int", "int") := by decide +kernel
  obtain ⟨b, hb, heq⟩ := Option.map_eq_some_iff.mp hshown
  simp only [Prod.mk.injEq] at heq
  obtain ⟨hspan, hfinal, hdeclared⟩ := heq
  have hsettled : s.Settled b := hfinal.trans hdeclared.symm
  obtain ⟨htable, hshows, -⟩ := checkText_binding_signatures ⟨"settled.glx"⟩
    "module M\nlet x = 1\nlet y = M.x".toList {} none hb
  rw [hspan] at htable hshows
  exact ⟨_, (htable _).mpr rfl, fun o ho => hshows hsettled _ (.occurrence ho)⟩

/-- A value whose type is still open at the end of its binding. The name behind the path of the module
keeps showing the open type. -/
theorem openValue_shows_two_types :
    let r := checkText ⟨"open.glx"⟩ "module M\nlet x = id 1\nlet y = M.x".toList {} none
    r.hasErrors = false ∧
      r.symbols.map (fun d => (d.1, d.2.name, d.2.signature)) =
        [(⟨7, 8⟩, "M", "module M"), (⟨13, 14⟩, "M.x", "int"), (⟨26, 27⟩, "M.y", "int")] ∧
      ∃ o ∈ r.occurrences, o.span = ⟨32, 33⟩ ∧ o.symbol.span = some ⟨13, 14⟩ ∧
        o.symbol.signature = "'a" := by
  decide +kernel

end ScriptAnalyzer

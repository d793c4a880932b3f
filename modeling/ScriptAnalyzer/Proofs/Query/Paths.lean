import ScriptAnalyzer.Proofs.Query.Uses
import ScriptAnalyzer.Proofs.Typing.DeclarationSightings

/-!
A path query about a name that the checker found through an entity gives the same symbol, unless the name
is that of a member without qualification, of which path queries do not know.
-/

namespace ScriptAnalyzer

namespace CheckResult

/-- Whatever leading part of the written name is an entity in sight from `offset`, the rest of the name
behind it gives the qualified name `name`. -/
def Unambiguous (r : CheckResult) (segments : List String) (offset : Nat) (name : String) : Prop :=
  ∀ n < segments.length, ∀ p ∈ r.searchPaths offset,
    let path := qualify p (joinPath (segments.take (n + 1)))
    r.entities.contains path = true → joinPath (path :: segments.drop (n + 1)) = name

instance (r : CheckResult) (segments : List String) (offset : Nat) (name : String) :
    Decidable (r.Unambiguous segments offset name) :=
  inferInstanceAs (Decidable (∀ n < segments.length, ∀ p ∈ r.searchPaths offset, _ → _))

variable {r : CheckResult} {segments : List String} {offset : Nat} {p path name last : String}

/-- The whole of the written name can only be the entity of the qualified name. -/
theorem Unambiguous.whole (h : r.Unambiguous segments offset name) (hne : segments ≠ []) :
    ∀ q ∈ r.searchPaths offset, r.entities.contains (qualify q (joinPath segments)) = true →
      qualify q (joinPath segments) = name := by
  intro q hq hcontains
  obtain ⟨n, hn⟩ := Nat.exists_eq_succ_of_ne_zero (List.length_pos_of_ne_nil hne).ne'
  have hjoined := h n (by omega) q hq
  rw [List.take_of_length_le (by omega), List.drop_of_length_le (by omega)] at hjoined
  exact (joinPath_singleton _).symm.trans (hjoined hcontains)

/-- What stands in front of the last segment can only be the entity around the qualified name. -/
theorem Unambiguous.front (h : r.Unambiguous (segments ++ [last]) offset name) (hne : segments ≠ []) :
    ∀ q ∈ r.searchPaths offset, r.entities.contains (qualify q (joinPath segments)) = true →
      qualify q (joinPath segments) ++ "." ++ last = name := by
  intro q hq hcontains
  obtain ⟨n, hn⟩ := Nat.exists_eq_succ_of_ne_zero (List.length_pos_of_ne_nil hne).ne'
  have hjoined := h n (by simp; omega) q hq
  rw [List.take_append_of_le_length (by omega), List.take_of_length_le (by omega),
    List.drop_append_of_le_length (by omega), List.drop_of_length_le (by omega), List.nil_append] at hjoined
  have hpath : joinPath [qualify q (joinPath segments), last] = name := hjoined hcontains
  rwa [joinPath_cons _ (by simp), joinPath_singleton] at hpath

end CheckResult

namespace CheckerState

end CheckerState

/-- The use of a dotted name that the checker found through an entity, and no member of a value. -/
structure SyntaxFile.FindsSymbol (f : SyntaxFile) (s : CheckerState) (name : LongIdent) (symbol : Symbol) :
    Prop where
  spelled : f.Spells name
  mentioned : ⟨name.last.span, .fixed symbol, false⟩ ∈ s.records.mentions
  notOfValue : ∀ site ∈ s.records.members, site.name = some name.last.span → ∃ p, site.receiver = .entity p

theorem SyntaxFile.FindsSymbol.sees {path : Path} {text : Text} {kind : SourceKind} {defines : List String}
    {context : Context} {name : LongIdent} {symbol : Symbol}
    (h : (SyntaxFile.parse path text kind defines).FindsSymbol
      ((SyntaxFile.parse path text kind defines).endState context) name symbol)
    (hmodule : ∀ p ∈ (SyntaxFile.parse path text kind defines).moduleName?, "" ∉ pathSegments p) :
    ((SyntaxFile.parse path text kind defines).endState context).outline.Sees
      (SyntaxFile.parse path text kind defines).outerPaths name symbol := by
  cases SyntaxFile.endState_accounts path text kind defines context hmodule _ h.mentioned with
  | definition hdefinition => cases hdefinition
  | binder htarget => cases htarget
  | @label n hlabel hspan =>
    obtain ⟨e, he, hname⟩ := h.spelled
    have hnames := Decl.names_of_mem_exprsOfAll _ he (Expr.parts_of_longName hname _ name.last_mem)
    obtain ⟨m, hm, hnamed⟩ := List.mem_filterMap.mp hnames
    have hsource := congrArg Prod.snd (Landmark.source_of_named hnamed)
    have heq := SyntaxFile.landmark_unique path text kind defines (List.mem_append_right _ hm) hlabel
      (hsource.trans hspan)
    rw [heq] at hnamed
    cases hnamed
  | value hsite hname hvalue =>
    obtain ⟨p, hp⟩ := h.notOfValue _ hsite hname
    rw [hvalue] at hp
    cases hp
  | @found name' symbol' hspells hspan htarget _ hsees =>
    obtain ⟨e, he, hname⟩ := h.spelled
    obtain ⟨e', he', hname'⟩ := hspells
    obtain rfl := SyntaxFile.longName_unique path text kind defines he he' hname hname' hspan
    obtain rfl : symbol = symbol' := Target.fixed.inj htarget
    exact hsees

end ScriptAnalyzer

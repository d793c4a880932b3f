import Mathlib.Data.List.Infix
import ScriptAnalyzer.Project.Context
import ScriptAnalyzer.Token.Layout
import ScriptAnalyzer.Proofs.Token.Spelling

/-!
The conditional regions of a text are read twice: by the directive lines of a context, and by the layout
of the tokens. Both see the same regions if every conditional starts its line and names its symbol right
behind, and no symbol is first defined behind a conditional that asks for it.
-/

namespace ScriptAnalyzer

/-! Lines -/

section Lines

variable {text before piece rest before' rest' between : Text}

/-- The text between a piece and a later place. -/
theorem Text.exists_between (h : text = before ++ (piece ++ rest)) (h' : text = before' ++ rest')
    (hle : byteSize (before ++ piece) ≤ byteSize before') :
    ∃ between, before' = before ++ (piece ++ between) ∧ rest = between ++ rest' := by
  have hprefix : before ++ piece <+: before' :=
    prefix_of_byteSize_le ⟨rest, by rw [h, List.append_assoc]⟩ ⟨rest', h'.symm⟩ hle
  obtain ⟨between, rfl⟩ := hprefix
  refine ⟨between, List.append_assoc .., ?_⟩
  have heq := h.symm.trans h'
  simp only [List.append_assoc, List.append_cancel_left_eq] at heq
  exact heq

theorem Layout.sameLine_iff (h : text = before ++ (piece ++ (between ++ rest)))
    (hpiece : '\n' ∉ piece) :
    sameLine text (Text.byteSize before) (Text.byteSize (before ++ (piece ++ between))) = true ↔
      '\n' ∉ between := by
  have hstart : (text.positionOf (Text.byteSize before)).line = before.count '\n' := by
    rw [h, Text.line_positionOf]
  have hplace : (text.positionOf (Text.byteSize (before ++ (piece ++ between)))).line =
      before.count '\n' + between.count '\n' := by
    rw [show text = before ++ (piece ++ between) ++ rest by simp [h], Text.line_positionOf,
      List.count_append, List.count_append, List.count_eq_zero.mpr hpiece, Nat.zero_add]
  rw [sameLine, hstart, hplace, beq_iff_eq, Nat.left_eq_add, List.count_eq_zero]

theorem Text.takeWhile_append_of_not_mem {xs ys : Text} (h : '\n' ∉ xs) :
    (xs ++ ys).takeWhile (· ≠ '\n') = xs ++ ys.takeWhile (· ≠ '\n') := by
  refine List.takeWhile_append_of_pos fun c hc => ?_
  simpa using fun heq : c = '\n' => h (heq ▸ hc)

theorem DirectiveLine.lt_lineEnd_iff (h : text = before ++ (piece ++ (between ++ rest)))
    (hrest : ∃ c cs, rest = c :: cs ∧ c ≠ '\n') :
    Text.byteSize (before ++ (piece ++ between)) < lineEnd text (Text.byteSize (before ++ piece)) ↔
      '\n' ∉ between := by
  obtain ⟨c, cs, rfl, hc⟩ := hrest
  have hdrop : text.dropBytes? (Text.byteSize (before ++ piece)) = some (between ++ c :: cs) := by
    rw [show text = before ++ piece ++ (between ++ c :: cs) by simp [h], Text.dropBytes?_byteSize]
  rw [lineEnd, hdrop, ← List.append_assoc, Text.byteSize_append, Nat.add_lt_add_iff_left,
    Option.getD_some]
  constructor
  · intro hlt hmem
    have hends : (between.takeWhile (· ≠ '\n')).length ≠ between.length := by
      intro heq
      have hall : (between.takeWhile (· ≠ '\n')).all (· ≠ '\n') = true := List.all_takeWhile
      rw [(List.takeWhile_prefix _).eq_of_length heq] at hall
      simpa using List.all_eq_true.mp hall '\n' hmem
    rw [List.takeWhile_append, if_neg hends] at hlt
    obtain ⟨more, hmore⟩ := List.takeWhile_prefix (l := between) (· ≠ '\n' : Char → Bool)
    have hsize := congrArg Text.byteSize hmore
    rw [Text.byteSize_append] at hsize
    omega
  · intro hnone
    have := c.utf8Size_pos
    rw [Text.takeWhile_append_of_not_mem hnone, List.takeWhile_cons_of_pos (by simpa using hc),
      Text.byteSize_append, Text.byteSize]
    omega

theorem DirectiveLine.not_startsLine (h : text = before ++ ('#' :: piece ++ (between ++ rest)))
    (hpiece : '\n' ∉ piece) (hbetween : '\n' ∉ between) :
    startsLine text (Text.byteSize (before ++ ('#' :: piece ++ between))) = false := by
  have htake : text.takeBytes? (Text.byteSize (before ++ ('#' :: piece ++ between))) =
      some (before ++ ('#' :: piece ++ between)) := by
    rw [show text = before ++ ('#' :: piece ++ between) ++ rest by simp [h], Text.takeBytes?_byteSize]
  have hnone : '\n' ∉ (piece ++ between).reverse ++ ['#'] := by simp [hpiece, hbetween]
  have hline : ((before ++ ('#' :: piece ++ between)).reverse.takeWhile (· ≠ '\n')) =
      (piece ++ between).reverse ++ ['#'] ++ before.reverse.takeWhile (· ≠ '\n') := by
    rw [← Text.takeWhile_append_of_not_mem hnone]
    simp
  rw [startsLine, htake, Option.getD_some, hline]
  simp

end Lines

/-! Directives and the tokens behind them -/

section Tokens

variable {text : Text} {raw : String} {span : Span} {rest : List (Token × Span)} {u : Token × Span}

theorem Token.stop_le_start {t : Token × Span} (h : t :: rest <:+ Token.tokens text) (hu : u ∈ rest) :
    t.2.stop ≤ u.2.start := by
  have hascend := (Token.tokensFrom_ascend 0 text).sublist (h.sublist.map (·.2))
  exact (hascend.2.2.of_mem (List.mem_map_of_mem hu)).1

/-- Of the tokens behind a directive, those in front of the end of its line stand on the line, and none of
these starts it. -/
theorem DirectiveLine.on_line (h : (.directive raw, span) :: rest <:+ Token.tokens text) (hu : u ∈ rest) :
    (u.2.start < lineEnd text span.stop ↔ Layout.sameLine text span.start u.2.start = true) ∧
      (u.2.start < lineEnd text span.stop → startsLine text u.2.start = false) := by
  have hle := Token.stop_le_start h hu
  obtain ⟨before, piece, behind, ht⟩ := Token.tokens_stand (h.subset List.mem_cons_self)
  obtain ⟨before', piece', behind', ht'⟩ := Token.tokens_stand (h.subset (List.mem_cons_of_mem _ hu))
  obtain rfl : span = ⟨_, _⟩ := ht.span_eq
  rw [ht'.span_eq] at hle ⊢
  obtain ⟨-, letters, rfl, hletters⟩ := ht.spells
  have hnone : '\n' ∉ letters := fun hmem => absurd (hletters _ hmem) (by decide)
  obtain ⟨between, rfl, rfl⟩ := Text.exists_between ht.text_eq ht'.text_eq hle
  have hopens : ∃ c cs, piece' ++ behind' = c :: cs ∧ c ≠ '\n' := by
    obtain ⟨c, cs, rfl, hblank⟩ := ht'.opens
    refine ⟨c, cs ++ behind', rfl, ?_⟩
    rintro rfl
    cases hblank
  have hline := lt_lineEnd_iff ht.text_eq hopens
  refine ⟨hline.trans (Layout.sameLine_iff ht.text_eq (by simp [hnone])).symm, fun hlt => ?_⟩
  exact not_startsLine ht.text_eq hnone (hline.mp hlt)

end Tokens

/-! Conditionals by name -/

namespace Layout

/-- The conditional of a directive's name. -/
def Conditional.ofName? : String → Option Conditional
  | "if" => some .ifBranch
  | "else" => some .elseBranch
  | "endif" => some .endRegion
  | _ => none

theorem Conditional.ofName?_eq_none {name : String} (hif : name ≠ "if") (helse : name ≠ "else")
    (hend : name ≠ "endif") : ofName? name = none := by
  unfold ofName?
  split <;> first | contradiction | rfl

end Layout

open Layout

theorem DirectiveLine.ofName?_eq {raw : String} {piece : Text} (h : (Token.directive raw).Spells piece) :
    Conditional.ofName? (String.ofList (raw.toList.dropWhile (· == '#'))) =
      Conditional.ofToken? (.directive raw) := by
  obtain ⟨rfl, letters, hraw, hletters⟩ := h
  have hname : raw.toList.dropWhile (· == '#') = letters := by
    rw [hraw, List.dropWhile_cons_of_pos (by simp)]
    cases letters with
    | nil => rfl
    | cons c cs =>
      refine List.dropWhile_cons_of_neg fun hhash => ?_
      obtain rfl : c = '#' := by simpa using hhash
      exact absurd (hletters _ List.mem_cons_self) (by decide)
  have hraw' (word : Text) : raw = String.ofList ('#' :: word) ↔ letters = word := by
    rw [← String.toList_inj, hraw, String.toList_ofList, List.cons.injEq]
    exact and_iff_right rfl
  have hofList (word : Text) : String.ofList letters = String.ofList word ↔ letters = word := by
    rw [← String.toList_inj, String.toList_ofList, String.toList_ofList]
  rw [hname]
  unfold Conditional.ofName?
  split
  case h_1 h =>
    rw [(hraw' ['i', 'f']).mpr ((hofList ['i', 'f']).mp h)]
    rfl
  case h_2 h =>
    rw [(hraw' ['e', 'l', 's', 'e']).mpr ((hofList ['e', 'l', 's', 'e']).mp h)]
    rfl
  case h_3 h =>
    rw [(hraw' ['e', 'n', 'd', 'i', 'f']).mpr ((hofList ['e', 'n', 'd', 'i', 'f']).mp h)]
    rfl
  case h_4 hif helse hend =>
    unfold Conditional.ofToken?
    split
    case h_1 heq => exact absurd ((hofList _).mpr ((hraw' _).mp (Token.directive.inj heq))) hif
    case h_2 heq => exact absurd ((hofList _).mpr ((hraw' _).mp (Token.directive.inj heq))) helse
    case h_3 heq => exact absurd ((hofList _).mpr ((hraw' _).mp (Token.directive.inj heq))) hend
    case h_4 => rfl

/-! The directives that a context applies -/

/-- The symbol that an `#if` asks for. -/
def DirectiveLine.symbol? (d : DirectiveLine) : Option String :=
  d.args.head?.map fun arg => String.ofList arg.text

namespace Context

variable {base : Path} {c : Context} {d : DirectiveLine} {ds : List DirectiveLine}
  {state : Context × List Bool}

/-- The regions behind a conditional that asks for a symbol. -/
def turn (c : Context) (symbol? : Option String) (regions : List Bool) : Conditional → List Bool
  | .ifBranch => symbol?.elim false c.defines.contains :: regions
  | .elseBranch => match regions with
    | active :: outer => (!active) :: outer
    | [] => []
  | .endRegion => regions.tail

theorem step_eq (base : Path) (c : Context) (regions : List Bool) (d : DirectiveLine) :
    step base (c, regions) d = match Conditional.ofName? d.name with
      | some conditional =>
        (c, c.turn d.symbol? regions conditional)
      | none => (if regions.all id then c.apply base d else c, regions) := by
  obtain ⟨name, span, args⟩ := d
  simp only [step]
  split
  · cases args <;> rfl
  · rfl
  · rfl
  case h_4 hif helse hend => rw [Conditional.ofName?_eq_none hif helse hend]

/-- The directive lines outside inactive regions, which the context applies. -/
def applied (base : Path) : Context × List Bool → List DirectiveLine → List DirectiveLine
  | _, [] => []
  | state, d :: ds =>
    (if (Conditional.ofName? d.name).isNone && state.2.all id then [d] else []) ++
      applied base (step base state d) ds

theorem foldl_step_eq (base : Path) (state : Context × List Bool) (ds : List DirectiveLine) :
    (ds.foldl (step base) state).1 = (applied base state ds).foldl (fun c d => c.apply base d) state.1 := by
  induction ds generalizing state with
  | nil => rfl
  | cons d ds ih =>
    obtain ⟨c, regions⟩ := state
    rw [List.foldl_cons, ih, applied, List.foldl_append, step_eq]
    cases Conditional.ofName? d.name with
    | some conditional => rfl
    | none => cases regions.all id <;> rfl

/-- Each symbol that an `#if` asks for is defined there exactly if it is among the symbols `final`. -/
def settled (base : Path) (final : List String) : Context × List Bool → List DirectiveLine → Bool
  | _, [] => true
  | state, d :: ds =>
    (Conditional.ofName? d.name != some .ifBranch ||
      d.symbol?.all fun name => final.contains name == state.1.defines.contains name) &&
      settled base final (step base state d) ds

end Context

/-! Texts that are read alike -/

namespace Layout

/-- If the first of the tokens is a conditional, it starts its line, and an `#if` has its symbol right
behind. -/
def plainHead (text : Text) : List (Token × Span) → Bool
  | [] => true
  | (token, span) :: rest => match Conditional.ofToken? token with
    | none => true
    | some conditional => DirectiveLine.startsLine text span.start &&
      (conditional != .ifBranch || (condition? text span.start rest).isSome)

def plainConditionals (text : Text) : Bool := (Token.tokens text).tails.all (plainHead text)

/-- The token starts a directive line that is no conditional. -/
def startsDirective (text : Text) (t : Token × Span) : Bool :=
  match t.1 with
  | .directive _ => (Conditional.ofToken? t.1).isNone && DirectiveLine.startsLine text t.2.start
  | _ => false

variable {text : Text} {defines : List String} {regions : List Region} {token : Token} {span : Span}
  {rest : List (Token × Span)}

theorem activeTokens_conditional {conditional : Conditional}
    (h : Conditional.ofToken? token = some conditional) :
    (activeTokens text defines regions ((token, span) :: rest)).1 =
      (activeTokens text defines (conditional.apply text defines span rest regions).1
        (rest.dropWhile fun t => sameLine text span.start t.2.start)).1 := by
  have hcomment : token.isComment = false := by
    unfold Conditional.ofToken? at h
    split at h <;> first | rfl | cases h
  rw [activeTokens, if_neg (by simp [hcomment]), h]

theorem filter_activeTokens (h : Conditional.ofToken? token = none) :
    (activeTokens text defines regions ((token, span) :: rest)).1.filter (startsDirective text) =
      (if startsDirective text (token, span) && regions.all (·.active) then [(token, span)] else []) ++
        (activeTokens text defines regions rest).1.filter (startsDirective text) := by
  cases token with
  | directive raw =>
    rw [activeTokens, if_neg (by simp [Token.isComment]), h]
    cases regions.all (·.active) with
    | true =>
      simp only [if_true, Bool.and_true, List.filter_cons]
      split <;> rfl
    | false => simp
  | _ =>
    rw [activeTokens, h]
    cases regions.all (·.active) <;> simp [Token.isComment, startsDirective]

end Layout

/-! Both readings, token by token -/

section Agreement

variable {text : Text} {base : Path} {final : List String} {raw name : String} {token : Token}
  {span : Span} {rest : List (Token × Span)} {skipped : Nat}

namespace DirectiveLine

/-- A token that starts no directive line changes nothing. -/
theorem collect_other
    (h : span.start < skipped ∨ ∀ raw, token = .directive raw → startsLine text span.start = false) :
    collect text skipped ((token, span) :: rest) = collect text skipped rest := by
  cases token with
  | directive raw =>
    rw [collect]
    split
    case isTrue => rfl
    case isFalse hbehind => exact if_neg (by simp [h.resolve_left hbehind raw rfl])
  | _ =>
    rw [collect]
    · exact ite_self _
    · nofun

theorem collect_dropWhile {p : Token × Span → Bool} (h : ∀ u ∈ rest, p u = true ↔ u.2.start < skipped) :
    collect text skipped (rest.dropWhile p) = collect text skipped rest := by
  induction rest with
  | nil => rfl
  | cons u rest ih =>
    obtain ⟨hu, hrest⟩ := List.forall_mem_cons.mp h
    by_cases hp : p u = true
    · rw [List.dropWhile_cons_of_pos hp, ih hrest, collect_other (.inl (hu.mp hp))]
    · rw [List.dropWhile_cons_of_neg hp]

/-- The line of a directive in front of the tokens `rest`. -/
def ofTokens (text : Text) (raw : String) (span : Span) (rest : List (Token × Span)) : DirectiveLine :=
  let onLine := rest.takeWhile fun t => t.2.start < lineEnd text span.stop
  let args := (onLine.filter fun t => !t.1.isComment).map (argument text)
  { name := String.ofList (raw.toList.dropWhile (· == '#'))
    span := ⟨span.start, (args.getLast?.map (·.span.stop)).getD span.stop⟩
    args }

theorem collect_line (hbehind : ¬span.start < skipped) (hline : startsLine text span.start = true) :
    collect text skipped ((.directive raw, span) :: rest) =
      ofTokens text raw span rest :: collect text (lineEnd text span.stop) rest := by
  rw [collect, if_neg hbehind]
  exact if_pos hline

/-- Both readings ask for the same symbol. -/
theorem symbol?_eq (h : (.directive raw, span) :: rest <:+ Token.tokens text)
    (hname : condition? text span.start rest = some name) :
    (ofTokens text raw span rest).symbol? = some name := by
  unfold condition? at hname
  split at hname
  case h_1 name' span' rest' =>
    have hmem : (Token.ident name', span') ∈ (Token.ident name', span') :: rest' := List.mem_cons_self
    split at hname
    case isTrue hsame =>
      obtain rfl := Option.some.inj hname
      have hlt := (on_line h hmem).1.mpr hsame
      obtain ⟨before, piece, behind, hstands⟩ := Token.tokens_stand
        (h.subset (List.mem_cons_of_mem _ hmem))
      have hslice : span'.slice? text = some name'.toList := by
        obtain rfl : span' = ⟨_, _⟩ := hstands.span_eq
        rw [hstands.text_eq, ← hstands.spells.1]
        exact Text.slice?_byteSize before piece behind
      simp [symbol?, ofTokens, List.takeWhile_cons_of_pos, hlt, Token.isComment, argument, hslice]
    case isFalse => cases hname
  case h_2 => cases hname

end DirectiveLine

theorem Layout.Conditional.exists_directive {conditional : Conditional}
    (h : Conditional.ofToken? token = some conditional) : ∃ raw, token = .directive raw := by
  unfold Conditional.ofToken? at h
  split at h
  · exact ⟨_, rfl⟩
  · exact ⟨_, rfl⟩
  · exact ⟨_, rfl⟩
  · cases h

/-- A conditional starts its line, so no other token is one. -/
theorem Layout.ofToken?_of_plainHead (hhead : plainHead text ((token, span) :: rest) = true)
    (h : DirectiveLine.startsLine text span.start = false ∨
      ∀ raw, token = .directive raw → DirectiveLine.startsLine text span.start = false) :
    Conditional.ofToken? token = none := by
  cases hconditional : Conditional.ofToken? token with
  | none => rfl
  | some conditional =>
    obtain ⟨raw, rfl⟩ := Conditional.exists_directive hconditional
    have hline := h.elim id fun h => h raw rfl
    simp [plainHead, hconditional, hline] at hhead

theorem Layout.startsDirective_eq_false
    (h : DirectiveLine.startsLine text span.start = false ∨
      ∀ raw, token = .directive raw → DirectiveLine.startsLine text span.start = false) :
    startsDirective text (token, span) = false := by
  cases token with
  | directive raw => simp [startsDirective, h.elim id fun h => h raw rfl]
  | _ => rfl

/-- An `#if` asks both readings for the symbol that they agree about. -/
theorem DirectiveLine.asked {c : Context} (h : (.directive raw, span) :: rest <:+ Token.tokens text)
    (hhead : plainHead text ((.directive raw, span) :: rest) = true)
    (hif : Conditional.ofToken? (.directive raw) = some .ifBranch)
    (hsettled : ((ofTokens text raw span rest).symbol?.all fun name =>
      final.contains name == c.defines.contains name) = true) :
    ∃ name, condition? text span.start rest = some name ∧
      (ofTokens text raw span rest).symbol? = some name ∧
      final.contains name = c.defines.contains name := by
  simp only [plainHead, hif, Bool.and_eq_true] at hhead
  obtain ⟨name, hcondition⟩ := Option.isSome_iff_exists.mp hhead.2
  have hsymbol := symbol?_eq h hcondition
  rw [hsymbol] at hsettled
  exact ⟨name, hcondition, hsymbol, eq_of_beq hsettled⟩

theorem Layout.map_active_apply {c : Context} {symbol? : Option String} (regions : List Region)
    (conditional : Conditional)
    (h : conditional = .ifBranch → ∃ name, condition? text span.start rest = some name ∧
      symbol? = some name ∧ final.contains name = c.defines.contains name) :
    (conditional.apply text final span rest regions).1.map (·.active) =
      c.turn symbol? (regions.map (·.active)) conditional := by
  cases conditional with
  | ifBranch =>
    obtain ⟨name, hname, rfl, hdefined⟩ := h rfl
    simp only [Conditional.apply, hname, Context.turn, List.map_cons, Option.elim_some, hdefined]
  | elseBranch => cases regions <;> rfl
  | endRegion => cases regions <;> rfl

/-- From these regions and this context on, both readings of the tokens find the same directives. -/
def ReadAlike (text : Text) (base : Path) (final : List String) (c : Context) (regions : List Region)
    (skipped : Nat) (toks : List (Token × Span)) : Prop :=
  ((activeTokens text final regions toks).1.filter (startsDirective text)).map (·.2.start) =
    (Context.applied base (c, regions.map (·.active)) (DirectiveLine.collect text skipped toks)).map
      (·.span.start)

namespace ReadAlike

variable {c : Context} {regions : List Region}

theorem other
    (h : span.start < skipped ∨
      ∀ raw, token = .directive raw → DirectiveLine.startsLine text span.start = false)
    (hnone : Conditional.ofToken? token = none) (hstarts : startsDirective text (token, span) = false)
    (ih : ReadAlike text base final c regions skipped rest) :
    ReadAlike text base final c regions skipped ((token, span) :: rest) := by
  rw [ReadAlike, DirectiveLine.collect_other h, filter_activeTokens hnone, hstarts]
  exact ih

theorem ordinary (hbehind : ¬span.start < skipped)
    (hline : DirectiveLine.startsLine text span.start = true)
    (hname : Conditional.ofName? (DirectiveLine.ofTokens text raw span rest).name = none)
    (hnone : Conditional.ofToken? (.directive raw) = none)
    (ih : ReadAlike text base final
      (if (regions.map (·.active)).all id then c.apply base (DirectiveLine.ofTokens text raw span rest)
        else c) regions (DirectiveLine.lineEnd text span.stop) rest) :
    ReadAlike text base final c regions skipped ((.directive raw, span) :: rest) := by
  have hstarts : startsDirective text (.directive raw, span) = true := by
    simp [startsDirective, hnone, hline]
  rw [ReadAlike, DirectiveLine.collect_line hbehind hline, filter_activeTokens hnone, hstarts,
    Context.applied, Context.step_eq, hname, List.map_append, List.map_append, ih]
  cases hactive : regions.all (·.active) with
  | true => simp [hactive, DirectiveLine.ofTokens]
  | false => simp [hactive]

theorem conditional (hbehind : ¬span.start < skipped)
    (hline : DirectiveLine.startsLine text span.start = true) {conditional : Conditional}
    (hname : Conditional.ofName? (DirectiveLine.ofTokens text raw span rest).name = some conditional)
    (hconditional : Conditional.ofToken? (.directive raw) = some conditional)
    (honLine : ∀ u ∈ rest, sameLine text span.start u.2.start = true ↔
      u.2.start < DirectiveLine.lineEnd text span.stop)
    (hregions : (conditional.apply text final span rest regions).1.map (·.active) =
      c.turn (DirectiveLine.ofTokens text raw span rest).symbol? (regions.map (·.active)) conditional)
    (ih : ReadAlike text base final c (conditional.apply text final span rest regions).1
      (DirectiveLine.lineEnd text span.stop)
      (rest.dropWhile fun t => sameLine text span.start t.2.start)) :
    ReadAlike text base final c regions skipped ((.directive raw, span) :: rest) := by
  rw [ReadAlike, DirectiveLine.collect_line hbehind hline, activeTokens_conditional hconditional,
    Context.applied, Context.step_eq, hname, ih, hregions, DirectiveLine.collect_dropWhile honLine]
  rfl

end ReadAlike

theorem readAlike (hplain : plainConditionals text = true) (toks : List (Token × Span))
    (hsuffix : toks <:+ Token.tokens text) (skipped : Nat)
    (hskipped : ∀ u ∈ toks, u.2.start < skipped → DirectiveLine.startsLine text u.2.start = false)
    (c : Context) (regions : List Region)
    (hsettled : Context.settled base final (c, regions.map (·.active))
      (DirectiveLine.collect text skipped toks) = true) :
    ReadAlike text base final c regions skipped toks := by
  match toks with
  | [] => simp [ReadAlike, activeTokens, DirectiveLine.collect, Context.applied]
  | (token, span) :: rest =>
    have hrest : rest <:+ Token.tokens text := (List.suffix_cons _ _).trans hsuffix
    have hhead : plainHead text ((token, span) :: rest) = true :=
      List.all_eq_true.mp hplain _ ((List.mem_tails _ _).mpr hsuffix)
    obtain ⟨hspan, hskipped⟩ := List.forall_mem_cons.mp hskipped
    by_cases hother : span.start < skipped ∨
        ∀ raw, token = .directive raw → DirectiveLine.startsLine text span.start = false
    · rw [DirectiveLine.collect_other hother] at hsettled
      -- no directive line starts with the token, so both readings pass it by
      have ih := readAlike hplain rest hrest skipped hskipped c regions hsettled
      exact ih.other hother (ofToken?_of_plainHead hhead (hother.imp_left hspan))
        (startsDirective_eq_false (hother.imp_left hspan))
    · obtain ⟨hbehind, raw, rfl, hline⟩ : ¬span.start < skipped ∧ ∃ raw, token = .directive raw ∧
          DirectiveLine.startsLine text span.start = true := by
        simpa using hother
      obtain ⟨_, _, _, hstands⟩ := Token.tokens_stand (hsuffix.subset List.mem_cons_self)
      have hname : Conditional.ofName? (DirectiveLine.ofTokens text raw span rest).name =
          Conditional.ofToken? (.directive raw) := DirectiveLine.ofName?_eq hstands.spells
      have honLine (u : Token × Span) (hu : u ∈ rest) := DirectiveLine.on_line hsuffix hu
      rw [DirectiveLine.collect_line hbehind hline] at hsettled
      obtain ⟨hasked, hsettled⟩ := Bool.and_eq_true_iff.mp hsettled
      rw [Context.step_eq, hname] at hsettled
      cases hconditional : Conditional.ofToken? (.directive raw) with
      | none =>
        rw [hconditional] at hname hsettled
        exact .ordinary hbehind hline hname hconditional
          (readAlike hplain rest hrest _ (fun u hu => (honLine u hu).2) _ regions hsettled)
      | some conditional =>
        rw [hconditional] at hname hsettled
        have hsame (u : Token × Span) (hu : u ∈ rest) := (honLine u hu).1.symm
        -- both readings change the regions alike, and skip the same tokens of the line
        have hregions := map_active_apply regions conditional fun hif =>
          DirectiveLine.asked hsuffix hhead (hif ▸ hconditional) (by simpa [hname, hif] using hasked)
        have hlater : rest.dropWhile (fun t => sameLine text span.start t.2.start) <:+ rest :=
          List.dropWhile_suffix _
        refine .conditional hbehind hline hname hconditional hsame hregions
          (readAlike hplain _ (hlater.trans hrest) _
            (fun u hu => (honLine u (hlater.subset hu)).2) c _ ?_)
        rw [hregions, DirectiveLine.collect_dropWhile hsame]
        exact hsettled
termination_by toks.length
decreasing_by
  · exact Nat.lt_succ_self _
  · exact Nat.lt_succ_self _
  · exact Nat.lt_succ_of_le (List.dropWhile_sublist _).length_le

end Agreement

/-! Whole texts -/

theorem Span.Ascend.eq_of_start_eq {place : Nat} {toks : List (Token × Span)} {t u : Token × Span}
    (h : Ascend place (toks.map (·.2))) (ht : t ∈ toks) (hu : u ∈ toks)
    (hstart : t.2.start = u.2.start) : t = u := by
  induction toks generalizing place with
  | nil => cases ht
  | cons v toks ih =>
    obtain ⟨-, hlt, hrest⟩ := h
    have hlater (w : Token × Span) (hw : w ∈ toks) : v.2.start < w.2.start :=
      Nat.lt_of_lt_of_le hlt (hrest.of_mem (List.mem_map_of_mem hw)).1
    rcases List.mem_cons.mp ht with htv | ht <;> rcases List.mem_cons.mp hu with huv | hu
    · rw [htv, huv]
    · have := hlater u hu
      rw [← hstart, htv] at this
      omega
    · have := hlater t ht
      rw [hstart, huv] at this
      omega
    · exact ih hrest ht hu

theorem Layout.mem_place_iff {text : Text} {line? : Option Nat} {toks : List (Token × Span)}
    {token : Token} {span : Span} :
    (∃ u ∈ place text line? toks, u.token = token ∧ u.span = span) ↔ (token, span) ∈ toks := by
  induction toks generalizing line? with
  | nil => simp [place]
  | cons t toks ih =>
    simp only [place, List.mem_cons, exists_eq_or_imp, ih, Prod.ext_iff]
    exact or_congr_left (and_congr eq_comm eq_comm)

namespace Context

/-- The directive lines that a context applies: each has its effect, is recorded as a problem, or is left
to the parser of a module file. -/
def appliedLines (path : Path) (text : Text) (options : ProjectOptions) : List DirectiveLine :=
  applied (baseDir path options) (initial path options, []) (DirectiveLine.all text)

/-- No symbol is first defined behind an `#if` that asks for it. -/
def asksSettled (path : Path) (text : Text) (options : ProjectOptions) : Bool :=
  settled (baseDir path options) (resolve path text options).defines (initial path options, [])
    (DirectiveLine.all text)

theorem applied_iff_significant (path : Path) (text : Text) (options : ProjectOptions)
    (hplain : plainConditionals text = true) (hsettled : asksSettled path text options = true) :
    resolve path text options = (appliedLines path text options).foldl
        (fun c d => c.apply (baseDir path options) d) (initial path options) ∧
      ∀ raw span, (.directive raw, span) ∈ Token.tokens text →
        Conditional.ofToken? (.directive raw) = none → DirectiveLine.startsLine text span.start = true →
        ((∃ d ∈ appliedLines path text options, d.span.start = span.start) ↔
          ∃ u ∈ (significantTokens text (resolve path text options).defines).1,
            u.token = .directive raw ∧ u.span = span) := by
  refine ⟨foldl_step_eq _ _ _, fun raw span hmem hnone hline => ?_⟩
  have hstarts : startsDirective text (.directive raw, span) = true := by
    simp [startsDirective, hnone, hline]
  have halike : ((activeTokens text (resolve path text options).defines [] (Token.tokens text)).1.filter
      (startsDirective text)).map (·.2.start) = (appliedLines path text options).map (·.span.start) :=
    readAlike hplain (Token.tokens text) List.suffix_rfl 0 (by simp) (initial path options) [] hsettled
  have hactive := Layout.activeTokens_sublist text (resolve path text options).defines []
    (Token.tokens text)
  rw [significantTokens, Layout.mem_place_iff]
  have happlied : (∃ d ∈ appliedLines path text options, d.span.start = span.start) ↔
      span.start ∈ (appliedLines path text options).map (·.span.start) := List.mem_map.symm
  rw [happlied, ← halike, List.mem_map]
  constructor
  · rintro ⟨t, ht, hstart⟩
    have ht := (List.mem_filter.mp ht).1
    have heq := (Token.tokensFrom_ascend 0 text).eq_of_start_eq (hactive.subset ht) hmem hstart
    exact heq ▸ ht
  · intro ht
    exact ⟨_, List.mem_filter.mpr ⟨ht, hstarts⟩, rfl⟩

/-- A region for a symbol that the file defines, and its other branch. -/
theorem definedSymbol_read_alike :
    let text := "#define FAST\n#if FAST\n#nowarn \"20\"\n#else\n#nowarn \"64\"\n#endif".toList
    ∃ u ∈ (significantTokens text (resolve ⟨"main.glx"⟩ text {}).defines).1,
      u.token = .directive "#nowarn" ∧ u.span = ⟨22, 29⟩ := by
  intro text
  have h := (applied_iff_significant ⟨"main.glx"⟩ text {} (by decide +kernel) (by decide +kernel)).2
  exact (h "#nowarn" ⟨22, 29⟩ (by decide +kernel) (by decide +kernel) (by decide +kernel)).mp
    (by decide +kernel)

/-- The symbol of the region is written as a string. -/
theorem quotedSymbol_read_differently :
    let text := "#define X\n#if \"X\"\n#nowarn \"20\"\n#endif".toList
    (.directive "#nowarn", ⟨18, 25⟩) ∈ Token.tokens text ∧
      DirectiveLine.startsLine text 18 = true ∧
      (∃ d ∈ appliedLines ⟨"main.glx"⟩ text {}, d.span.start = 18) ∧
      (resolve ⟨"main.glx"⟩ text {}).nowarn = ["W0020"] ∧
      ¬∃ u ∈ (significantTokens text (resolve ⟨"main.glx"⟩ text {}).defines).1,
        u.token = .directive "#nowarn" ∧ u.span = ⟨18, 25⟩ := by
  decide +kernel

end Context

end ScriptAnalyzer

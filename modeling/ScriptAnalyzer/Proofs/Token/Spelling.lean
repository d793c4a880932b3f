import ScriptAnalyzer.Proofs.Text.Offsets
import ScriptAnalyzer.Proofs.Token.Order

/-!
Where tokens stand in their text, and how names and directives are spelled. Tokens and lexical errors stand
between characters of the text.
-/

namespace ScriptAnalyzer
namespace Token

/-- A name is its text; a directive is a hash with letters behind it. -/
def Spells : Token → Text → Prop
  | ident name, piece => piece = name.toList ∧ ∀ c ∈ piece, continuesName c = true
  | directive raw, piece =>
    piece = raw.toList ∧ ∃ letters, piece = '#' :: letters ∧ ∀ c ∈ letters, isLetter c = true
  | _, _ => True

theorem symbol?_spells (cs piece : Text) : ((symbol? cs).getD (error, 1)).1.Spells piece := by
  unfold symbol?
  split <;> trivial

theorem quoted_spells (cs piece : Text) : (quoted cs).1.Spells piece := by
  unfold quoted
  repeat' split
  all_goals trivial

theorem number_spells (cs piece : Text) : (number cs).1.Spells piece := by
  simp only [number]
  split <;> trivial

theorem take_takeWhile_length (p : Char → Bool) (cs : Text) :
    cs.take (cs.takeWhile p).length = cs.takeWhile p :=
  (List.prefix_iff_eq_take.mp (List.takeWhile_prefix p)).symm

theorem name_spells (cs : Text) : (name cs).1.Spells (cs.take (name cs).2) := by
  simp only [name, take_takeWhile_length]
  split
  · trivial
  · exact ⟨(String.toList_ofList).symm, fun c hc => List.all_eq_true.mp List.all_takeWhile c hc⟩

theorem lexeme_spells (c : Char) (cs : Text) :
    (lexeme c cs).1.Spells ((c :: cs).take (lexeme c cs).2) := by
  unfold lexeme
  split
  · exact number_spells _ _
  split
  · exact name_spells (c :: cs)
  split
  · simp only
    split <;> trivial
  split
  · exact quoted_spells _ _
  split
  case isTrue hash =>
    simp only
    split
    · trivial
    · rw [Nat.add_comm, List.take_succ_cons, take_takeWhile_length]
      refine ⟨(String.toList_ofList).symm, _, by rw [hash], fun d hd => ?_⟩
      exact List.all_eq_true.mp List.all_takeWhile d hd
  split
  · trivial
  · split <;> trivial
  · exact symbol?_spells _ _

/-- The token is the text `piece` between `before` and `rest`. -/
structure Stands (text : Text) (t : Token × Span) (before piece rest : Text) : Prop where
  text_eq : text = before ++ (piece ++ rest)
  span_eq : t.2 = ⟨Text.byteSize before, Text.byteSize (before ++ piece)⟩
  opens : ∃ c cs, piece = c :: cs ∧ isBlank c = false
  spells : t.1.Spells piece
  /-- The token is the first lexeme of some text. -/
  lexed : ∃ c cs, t.1 = (lexeme c cs).1 ∧ piece = (c :: cs).take (lexeme c cs).2

theorem tokensFrom_stands (before cs : Text) {t : Token × Span}
    (h : t ∈ tokensFrom (Text.byteSize before) cs) :
    ∃ pre piece rest, Stands (before ++ cs) t pre piece rest := by
  generalize hoffset : Text.byteSize before = offset at h
  fun_induction tokensFrom offset cs generalizing before with
  | case1 => cases h
  | case2 offset c cs hblank ih =>
    have hbefore : Text.byteSize (before ++ [c]) = offset + c.utf8Size := by
      rw [Text.byteSize_append, hoffset]
      rfl
    have hstands := ih (before ++ [c]) hbefore h
    rwa [List.append_assoc] at hstands
  | case3 offset c cs hblank token length hlexeme rest stop ih =>
    have hlength : length = length - 1 + 1 := by
      have hpos := lexeme_length_pos c cs
      rw [hlexeme] at hpos
      exact (Nat.sub_add_cancel hpos).symm
    have htext : c :: cs = (c :: cs).take length ++ rest := by
      rw [hlength]
      exact congrArg (c :: ·) (List.take_append_drop _ cs).symm
    have hstop : Text.byteSize (before ++ (c :: cs).take length) = stop := by
      rw [Text.byteSize_append, hoffset]
    rcases List.mem_cons.mp h with rfl | h
    · refine ⟨before, (c :: cs).take length, rest, by rw [← htext], ?_, ?_, ?_, ?_⟩
      · rw [hstop, hoffset]
      · exact ⟨c, cs.take (length - 1), by rw [hlength]; rfl, Bool.eq_false_iff.mpr hblank⟩
      · have hspells := lexeme_spells c cs
        rwa [hlexeme] at hspells
      · exact ⟨c, cs, by rw [hlexeme], by rw [hlexeme]⟩
    · have hstands := ih (before ++ (c :: cs).take length) hstop h
      rwa [List.append_assoc, ← htext] at hstands

theorem tokens_stand {text : Text} {t : Token × Span} (h : t ∈ tokens text) :
    ∃ before piece rest, Stands text t before piece rest :=
  tokensFrom_stands [] text h

end Token

/-! Between characters -/

namespace Text

variable {text before rest : Text} {n : Nat}

theorem isBoundary_byteSize (before rest : Text) : (before ++ rest).isBoundary (byteSize before) = true := by
  rw [isBoundary, dropBytes?_byteSize]
  rfl

theorem dropBytes?_eq_some (h : dropBytes? n text = some rest) :
    ∃ before, text = before ++ rest ∧ n = byteSize before := by
  fun_induction dropBytes? n text with
  | case1 cs => exact ⟨[], Option.some.inj h, rfl⟩
  | case2 => cases h
  | case3 n c cs hsize ih =>
    obtain ⟨before, rfl, hn⟩ := ih h
    exact ⟨c :: before, rfl, by rw [byteSize]; omega⟩
  | case4 => cases h

theorem le_byteSize_of_isBoundary (h : text.isBoundary n = true) : n ≤ byteSize text := by
  obtain ⟨rest, hrest⟩ := Option.isSome_iff_exists.mp h
  obtain ⟨before, rfl, rfl⟩ := dropBytes?_eq_some hrest
  rw [byteSize_append]
  exact Nat.le_add_right _ _

end Text

/-- The span does not end in front of its start, nor behind the end of a text of this size. -/
structure Span.Inside (size : Nat) (s : Span) : Prop where
  ordered : s.start ≤ s.stop
  inside : s.stop ≤ size

/-- The span is a part of the text, cut out between characters. -/
structure Span.ValidIn (s : Span) (text : Text) : Prop where
  ordered : s.start ≤ s.stop
  inside : s.stop ≤ text.byteSize
  start : text.isBoundary s.start = true
  stop : text.isBoundary s.stop = true

theorem Span.ValidIn.toInside {s : Span} {text : Text} (h : s.ValidIn text) : s.Inside text.byteSize :=
  ⟨h.ordered, h.inside⟩

theorem Span.validIn_of_append (before piece rest : Text) :
    ValidIn ⟨Text.byteSize before, Text.byteSize (before ++ piece)⟩ (before ++ (piece ++ rest)) := by
  have hstart := Text.isBoundary_byteSize before (piece ++ rest)
  have hstop := Text.isBoundary_byteSize (before ++ piece) rest
  rw [List.append_assoc] at hstop
  refine ⟨?_, Text.le_byteSize_of_isBoundary hstop, hstart, hstop⟩
  rw [Text.byteSize_append]
  exact Nat.le_add_right _ _

namespace Token

variable {text : Text} {t : Token × Span}

theorem Stands.validIn {before piece rest : Text} (h : Stands text t before piece rest) :
    t.2.ValidIn text := by
  rw [h.span_eq, h.text_eq]
  exact Span.validIn_of_append before piece rest

theorem validIn_of_mem (h : t ∈ tokens text) : t.2.ValidIn text := by
  obtain ⟨before, piece, rest, hstands⟩ := tokens_stand h
  exact hstands.validIn

/-- The name of a directive stands behind its hash. -/
theorem directiveName_validIn {raw : String} {span : Span} (h : (directive raw, span) ∈ tokens text) :
    Span.ValidIn ⟨span.start + 1, span.stop⟩ text := by
  obtain ⟨before, piece, rest, hstands⟩ := tokens_stand h
  obtain ⟨letters, rfl, -⟩ := hstands.spells.2
  have hspan := hstands.span_eq
  have hvalid := Span.validIn_of_append (before ++ ['#']) letters rest
  have hhash : Text.byteSize (before ++ ['#']) = Text.byteSize before + 1 := by
    rw [Text.byteSize_append]
    rfl
  rw [hhash, List.append_assoc, List.append_assoc] at hvalid
  simp only at hspan
  rw [hspan, hstands.text_eq]
  exact hvalid

end Token

namespace Layout

variable {text : Text}

theorem lexicalError_validIn {t : Token × Span} (h : t ∈ Token.tokens text) :
    (lexicalError text t.2).span.ValidIn text := by
  obtain ⟨before, piece, rest, hstands⟩ := Token.tokens_stand h
  unfold lexicalError
  split
  case h_1 more hslice =>
    rw [hstands.span_eq, hstands.text_eq, Text.slice?_byteSize, Option.getD_some] at hslice
    have htext : text = before ++ (['(', '*'] ++ (more ++ rest)) := by
      rw [hstands.text_eq, hslice]
      rfl
    have hvalid := Span.validIn_of_append before ['(', '*'] (more ++ rest)
    rw [← htext, Text.byteSize_append] at hvalid
    rw [hstands.span_eq]
    exact hvalid
  case h_2 => exact hstands.validIn
  case h_3 => exact hstands.validIn

theorem conditional_validIn {span : Span} {regions : List Region} (defines : List String)
    (rest : List (Token × Span)) (c : Conditional) (hspan : span.ValidIn text)
    (hregions : ∀ r ∈ regions, r.opener.ValidIn text) :
    (∀ r ∈ (c.apply text defines span rest regions).1, r.opener.ValidIn text) ∧
      ∀ e ∈ (c.apply text defines span rest regions).2, e.span.ValidIn text := by
  cases c with
  | ifBranch =>
    simp only [Conditional.apply]
    split
    · exact ⟨List.forall_mem_cons.mpr ⟨hspan, hregions⟩, nofun⟩
    · exact ⟨List.forall_mem_cons.mpr ⟨hspan, hregions⟩, List.forall_mem_singleton.mpr hspan⟩
  | elseBranch =>
    cases regions with
    | nil => exact ⟨nofun, List.forall_mem_singleton.mpr hspan⟩
    | cons r outer => exact ⟨List.forall_mem_cons.mpr (List.forall_mem_cons.mp hregions), nofun⟩
  | endRegion =>
    cases regions with
    | nil => exact ⟨nofun, List.forall_mem_singleton.mpr hspan⟩
    | cons r outer => exact ⟨(List.forall_mem_cons.mp hregions).2, nofun⟩

theorem activeTokens_errors_validIn (defines : List String) {regions : List Region}
    {tokens : List (Token × Span)} (hregions : ∀ r ∈ regions, r.opener.ValidIn text)
    (htokens : ∀ t ∈ tokens, t ∈ Token.tokens text) :
    ∀ e ∈ (activeTokens text defines regions tokens).2, e.span.ValidIn text := by
  fun_induction activeTokens text defines regions tokens with
  | case1 regions =>
    intro e he
    obtain ⟨r, hr, rfl⟩ := List.mem_map.mp he
    exact hregions r (List.mem_reverse.mp hr)
  | case2 _ _ _ _ _ ih => exact ih hregions (List.forall_mem_cons.mp htokens).2
  | case3 regions token span rest _ conditional _ regions' errors happly later tokens laterErrors hlater ih =>
    obtain ⟨htoken, hrest⟩ := List.forall_mem_cons.mp htokens
    have happlied := conditional_validIn defines rest conditional (Token.validIn_of_mem htoken) hregions
    rw [happly] at happlied
    rw [hlater] at ih
    exact List.forall_mem_append.mpr ⟨happlied.2,
      ih happlied.1 fun t ht => hrest t ((List.dropWhile_sublist _).subset ht)⟩
  | case4 _ _ _ tokens errors hrest _ _ _ ih =>
    obtain ⟨htoken, hrest'⟩ := List.forall_mem_cons.mp htokens
    rw [hrest] at ih
    exact List.forall_mem_cons.mpr ⟨lexicalError_validIn htoken, ih hregions hrest'⟩
  | case5 _ _ _ tokens errors hrest _ _ _ _ ih =>
    obtain ⟨htoken, hrest'⟩ := List.forall_mem_cons.mp htokens
    rw [hrest] at ih
    exact List.forall_mem_cons.mpr ⟨Token.validIn_of_mem htoken, ih hregions hrest'⟩
  | case6 _ _ _ _ _ _ tokens errors hrest _ _ _ ih =>
    rw [hrest] at ih
    exact ih hregions (List.forall_mem_cons.mp htokens).2
  | case7 _ _ _ _ _ _ tokens errors hrest _ ih =>
    rw [hrest] at ih
    exact ih hregions (List.forall_mem_cons.mp htokens).2

end Layout

theorem significantTokens_errors_validIn (text : Text) (defines : List String) :
    ∀ e ∈ (significantTokens text defines).2, e.span.ValidIn text :=
  Layout.activeTokens_errors_validIn defines nofun fun _ h => h

end ScriptAnalyzer

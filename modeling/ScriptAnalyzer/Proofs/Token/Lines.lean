import ScriptAnalyzer.Proofs.Token.Spelling

/-!
Tokens and lines. No token but a block comment reaches over the end of a line, so between a token and
one that starts a line there is a line feed.
-/

namespace ScriptAnalyzer
namespace Token

def OneLine (piece : Text) : Prop := '\n' ∉ piece

theorem oneLine_append {xs ys : Text} : OneLine (xs ++ ys) ↔ OneLine xs ∧ OneLine ys := by
  simp [OneLine]

theorem oneLine_takeWhile {p : Char → Bool} (hp : p '\n' = false) (cs : Text) :
    OneLine (cs.takeWhile p) := by
  intro h
  have hnewline := List.all_eq_true.mp List.all_takeWhile _ h
  rw [hp] at hnewline
  cases hnewline

theorem fractionLength_oneLine (cs : Text) : OneLine (cs.take (fractionLength cs)) := by
  unfold fractionLength
  split
  case h_1 cs =>
    dsimp only
    split
    · simp [OneLine]
    · rw [Nat.add_comm, List.take_succ_cons, take_takeWhile_length]
      exact List.not_mem_cons_of_ne_of_not_mem (by decide) (oneLine_takeWhile rfl cs)
  case h_2 => simp [OneLine]

theorem exponentLength_oneLine (cs : Text) : OneLine (cs.take (exponentLength cs)) := by
  unfold exponentLength
  split
  case h_1 e s cs =>
    split
    case isFalse => simp [OneLine]
    case isTrue he =>
      have hmark : '\n' ≠ e := by rintro rfl; exact absurd he (by decide)
      split
      · rw [Nat.add_comm, List.take_succ_cons, take_takeWhile_length]
        exact List.not_mem_cons_of_ne_of_not_mem hmark (oneLine_takeWhile rfl _)
      · split
        case isFalse => simp [OneLine]
        case isTrue hs =>
          have hsign : '\n' ≠ s := by rintro rfl; exact absurd hs (by decide)
          dsimp only
          split
          · simp [OneLine]
          · rw [Nat.add_comm, List.take_succ_cons, List.take_succ_cons, take_takeWhile_length]
            refine List.not_mem_cons_of_ne_of_not_mem hmark ?_
            exact List.not_mem_cons_of_ne_of_not_mem hsign (oneLine_takeWhile rfl cs)
  case h_2 => simp [OneLine]

theorem number_oneLine (cs : Text) : OneLine (cs.take (number cs).2) := by
  simp only [number, List.take_add, oneLine_append, take_takeWhile_length]
  exact ⟨⟨oneLine_takeWhile rfl cs, fractionLength_oneLine _⟩, exponentLength_oneLine _⟩

theorem stringLength_oneLine (cs : Text) : OneLine (cs.take (stringLength cs).1) := by
  fun_induction stringLength cs <;> simp_all [OneLine, List.take_succ_cons]
  all_goals grind

theorem quoted_oneLine (cs : Text) : OneLine (('\'' :: cs).take (quoted cs).2) := by
  have hvar : ∀ cs : Text, OneLine (cs.takeWhile continuesTypeVar) := oneLine_takeWhile rfl
  unfold quoted
  dsimp only
  split
  · split
    case isTrue => simp [OneLine]
    case isFalse hc => simpa [OneLine] using Ne.symm hc
  · simp [OneLine]
  · split
    case isTrue => simp [OneLine]
    case isFalse hc =>
      simp only [Bool.or_eq_true, decide_eq_true_eq, not_or] at hc
      simpa [OneLine] using Ne.symm hc.2
  · split
    · split
      case isTrue c cs _ _ _ hc =>
        rw [Nat.add_comm, List.take_succ_cons, List.take_succ_cons, take_takeWhile_length]
        refine List.not_mem_cons_of_ne_of_not_mem (by decide) ?_
        refine List.not_mem_cons_of_ne_of_not_mem ?_ (hvar cs)
        rintro rfl
        exact absurd hc (by decide)
      case isFalse => simp [OneLine]
    · simp [OneLine]

theorem symbol?_oneLine (cs : Text) (h : ((symbol? cs).getD (error, 1)).1 ≠ error) :
    OneLine (cs.take ((symbol? cs).getD (error, 1)).2) := by
  revert h
  unfold symbol?
  split <;> simp [OneLine]

/-- A lexeme that is neither a comment nor an error stands on one line. -/
theorem lexeme_oneLine (c : Char) (cs : Text) (hcomment : (lexeme c cs).1.isComment = false)
    (herror : (lexeme c cs).1 ≠ error) : OneLine ((c :: cs).take (lexeme c cs).2) := by
  revert hcomment herror
  unfold lexeme
  split
  · exact fun _ _ => number_oneLine _
  split
  · intro _ _
    rw [name, take_takeWhile_length]
    exact oneLine_takeWhile rfl _
  split
  case isTrue hquote =>
    intro _ _
    dsimp only
    rw [Nat.add_comm, List.take_succ_cons, hquote]
    exact List.not_mem_cons_of_ne_of_not_mem (by decide) (stringLength_oneLine cs)
  split
  case isTrue happostrophe => exact fun _ _ => happostrophe ▸ quoted_oneLine cs
  split
  case isTrue hhash =>
    simp only
    split
    · exact fun _ h => absurd rfl h
    · intro _ _
      rw [Nat.add_comm, List.take_succ_cons, take_takeWhile_length, hhash]
      exact List.not_mem_cons_of_ne_of_not_mem (by decide) (oneLine_takeWhile rfl cs)
  split
  · exact fun h => nomatch h
  · split
    · exact fun h => nomatch h
    · exact fun _ h => absurd rfl h
  · exact fun _ => symbol?_oneLine _

theorem Stands.oneLine {text before piece rest : Text} {t : Token × Span}
    (h : Stands text t before piece rest) (hcomment : t.1.isComment = false) (herror : t.1 ≠ error) :
    OneLine piece := by
  obtain ⟨c, cs, htoken, rfl⟩ := h.lexed
  rw [htoken] at hcomment herror
  exact lexeme_oneLine c cs hcomment herror

/-- A token that starts another line than the one in front of it does not touch it. -/
theorem stop_lt_of_lines {text : Text} {t u : Token × Span} (ht : t ∈ tokens text)
    (hu : u ∈ tokens text) (hcomment : t.1.isComment = false) (herror : t.1 ≠ error)
    (hle : t.2.stop ≤ u.2.start)
    (hline : (text.positionOf t.2.start).line ≠ (text.positionOf u.2.start).line) :
    t.2.stop < u.2.start := by
  obtain ⟨before, piece, rest, hstands⟩ := tokens_stand ht
  obtain ⟨before', piece', rest', hstands'⟩ := tokens_stand hu
  refine Nat.lt_of_le_of_ne hle fun hstop => hline ?_
  rw [hstands.span_eq, hstands'.span_eq] at hstop
  have hbefore : before ++ piece = before' := by
    have hprefix : before ++ piece <+: text :=
      ⟨rest, by rw [hstands.text_eq, List.append_assoc]⟩
    have hprefix' : before' <+: text := ⟨piece' ++ rest', hstands'.text_eq.symm⟩
    refine List.IsPrefix.eq_of_length_le
      (Text.prefix_of_byteSize_le hprefix hprefix' (Nat.le_of_eq hstop)) ?_
    exact (Text.prefix_of_byteSize_le hprefix' hprefix (Nat.le_of_eq hstop.symm)).length_le
  have hcount : piece.count '\n' = 0 :=
    List.count_eq_zero_of_not_mem (hstands.oneLine hcomment herror)
  calc (text.positionOf t.2.start).line
    _ = before.count '\n' := by
      rw [hstands.span_eq, hstands.text_eq]
      exact Text.line_positionOf before _
    _ = before'.count '\n' := by rw [← hbefore, List.count_append, hcount, Nat.add_zero]
    _ = (text.positionOf u.2.start).line := by
      rw [hstands'.span_eq, hstands'.text_eq]
      exact (Text.line_positionOf before' _).symm

end Token

namespace Layout

theorem activeTokens_kept (text : Text) (defines : List String) (regions : List Region)
    (tokens : List (Token × Span)) :
    ∀ t ∈ (activeTokens text defines regions tokens).1, t.1.isComment = false ∧ t.1 ≠ .error := by
  fun_induction activeTokens text defines regions tokens with
  | case1 => simp
  | case2 _ _ _ _ _ ih => exact ih
  | case3 _ _ _ _ _ _ _ _ _ _ later tokens errors hlater ih =>
    rw [hlater] at ih
    exact ih
  | case4 _ _ _ tokens errors hrest _ _ _ ih =>
    rw [hrest] at ih
    exact ih
  | case5 _ _ _ tokens errors hrest _ _ _ _ ih =>
    rw [hrest] at ih
    exact List.forall_mem_cons.mpr ⟨⟨rfl, by simp⟩, ih⟩
  | case6 regions token span rest hcomment _ tokens errors hrest _ herror _ ih =>
    rw [hrest] at ih
    refine List.forall_mem_cons.mpr ⟨⟨Bool.eq_false_iff.mpr hcomment, ?_⟩, ih⟩
    exact fun h => herror h
  | case7 _ _ _ _ _ _ tokens errors hrest _ ih =>
    rw [hrest] at ih
    exact ih

end Layout

/-- Tokens in the order of the text behind `place`. A line feed stands in front of those that start a
line, unless nothing does. -/
def Parted (place : Nat) : List LaidToken → Prop
  | [] => True
  | t :: ts =>
    place ≤ t.span.start ∧ t.span.start < t.span.stop ∧
      (t.lineStart = true → 0 < place → place < t.span.start) ∧ Parted t.span.stop ts

theorem Layout.place_parted {text : Text} {before : Token × Span} {tokens : List (Token × Span)}
    (htokens : ∀ t ∈ before :: tokens, t ∈ Token.tokens text ∧ t.1.isComment = false ∧ t.1 ≠ .error)
    (hascend : Span.Ascend before.2.stop (tokens.map (·.2))) :
    Parted before.2.stop (place text (some (text.positionOf before.2.start).line) tokens) := by
  induction tokens generalizing before with
  | nil => trivial
  | cons t ts ih =>
    obtain ⟨hle, hlt, hts⟩ := hascend
    obtain ⟨hbefore, hrest⟩ := List.forall_mem_cons.mp htokens
    refine ⟨hle, hlt, fun hline _ => ?_, ih hrest hts⟩
    have ht := (hrest t List.mem_cons_self).1
    refine Token.stop_lt_of_lines hbefore.1 ht hbefore.2.1 hbefore.2.2 hle ?_
    simpa using hline

theorem significantTokens_parted (text : Text) (defines : List String) :
    Parted 0 (significantTokens text defines).1 := by
  have hascend := (Token.tokensFrom_ascend 0 text).sublist
    ((Layout.activeTokens_sublist text defines [] (Token.tokens text)).map _)
  have hkept := Layout.activeTokens_kept text defines [] (Token.tokens text)
  have hsub := (Layout.activeTokens_sublist text defines [] (Token.tokens text)).subset
  simp only [significantTokens]
  generalize (Layout.activeTokens text defines [] (Token.tokens text)).1 = tokens at *
  cases tokens with
  | nil => trivial
  | cons t ts =>
    obtain ⟨hle, hlt, hts⟩ := hascend
    refine ⟨hle, hlt, fun _ hpos => absurd hpos (Nat.lt_irrefl 0), ?_⟩
    exact Layout.place_parted (fun u hu => ⟨hsub hu, hkept u hu⟩) hts

theorem Parted.ascend {place : Nat} {ts : List LaidToken} (h : Parted place ts) :
    Span.Ascend place (ts.map (·.span)) := by
  induction ts generalizing place with
  | nil => trivial
  | cons t ts ih =>
    obtain ⟨hle, hlt, -, hts⟩ := h
    exact ⟨hle, hlt, ih hts⟩

end ScriptAnalyzer

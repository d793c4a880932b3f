import ScriptAnalyzer.Token.Layout

namespace ScriptAnalyzer

def Span.Ascend (place : Nat) : List Span → Prop
  | [] => True
  | s :: ss => place ≤ s.start ∧ s.start < s.stop ∧ Ascend s.stop ss

namespace Span.Ascend

variable {place earlier : Nat} {spans some : List Span} {s : Span}

theorem from_earlier (h : Ascend place spans) (hp : earlier ≤ place) : Ascend earlier spans := by
  cases spans with
  | nil => trivial
  | cons s ss =>
    obtain ⟨hle, hlt, hss⟩ := h
    exact ⟨Nat.le_trans hp hle, hlt, hss⟩

theorem tail (h : Ascend place (s :: spans)) : Ascend place spans := by
  obtain ⟨hle, hlt, hss⟩ := h
  exact hss.from_earlier (by omega)

theorem sublist (h : Ascend place spans) (hsub : some.Sublist spans) : Ascend place some := by
  induction hsub generalizing place with
  | slnil => trivial
  | cons s _ ih => exact ih h.tail
  | cons_cons s _ ih =>
    obtain ⟨hle, hlt, hss⟩ := h
    exact ⟨hle, hlt, ih hss⟩

theorem of_mem (h : Ascend place spans) (hs : s ∈ spans) : place ≤ s.start ∧ s.start < s.stop := by
  induction spans generalizing place with
  | nil => cases hs
  | cons t ts ih =>
    obtain ⟨hle, hlt, hts⟩ := h
    rcases List.mem_cons.mp hs with rfl | hs
    · exact ⟨hle, hlt⟩
    · obtain ⟨hle', hlt'⟩ := ih hts hs
      exact ⟨by omega, hlt'⟩

theorem pairwise (h : Ascend place spans) : spans.Pairwise fun s t => s.stop ≤ t.start := by
  induction spans generalizing place with
  | nil => exact .nil
  | cons s spans ih =>
    obtain ⟨-, -, hspans⟩ := h
    exact .cons (fun t ht => (hspans.of_mem ht).1) (ih hspans)

end Span.Ascend

namespace Token

theorem takeWhile_length_pos {p : Char → Bool} {c : Char} (h : p c = true) (cs : Text) :
    0 < ((c :: cs).takeWhile p).length := by
  rw [List.takeWhile_cons_of_pos h]
  exact Nat.succ_pos _

theorem quoted_length_pos (cs : Text) : 0 < (quoted cs).2 := by
  unfold quoted
  repeat' split
  all_goals
    simp only
    omega

theorem symbol?_length_pos (cs : Text) : 0 < ((symbol? cs).getD (error, 1)).2 := by
  unfold symbol?
  split <;> simp

theorem lexeme_length_pos (c : Char) (cs : Text) : 0 < (lexeme c cs).2 := by
  unfold lexeme
  split
  case isTrue hdigit =>
    have := takeWhile_length_pos hdigit cs
    simp only [number]
    omega
  split
  case isTrue hname =>
    exact takeWhile_length_pos (by simp [continuesName, continuesTypeVar, hname]) cs
  split
  · exact Nat.add_pos_left Nat.one_pos _
  split
  · exact quoted_length_pos cs
  split
  · simp only
    split
    · exact Nat.one_pos
    · exact Nat.add_pos_left Nat.one_pos _
  split
  · exact Nat.add_pos_left Nat.two_pos _
  · split <;> exact Nat.add_pos_left Nat.two_pos _
  · exact symbol?_length_pos _

theorem byteSize_pos (c : Char) (cs : Text) {n : Nat} (hn : 0 < n) :
    0 < Text.byteSize ((c :: cs).take n) := by
  cases n with
  | zero => exact absurd hn (Nat.lt_irrefl 0)
  | succ n =>
    have := c.utf8Size_pos
    simp only [List.take_succ_cons, Text.byteSize]
    omega

theorem tokensFrom_ascend (offset : Nat) (cs : Text) :
    Span.Ascend offset ((tokensFrom offset cs).map (·.2)) := by
  fun_induction tokensFrom offset cs with
  | case1 => trivial
  | case2 offset c cs hblank ih => exact ih.from_earlier (Nat.le_add_right _ _)
  | case3 offset c cs hblank token length hlexeme rest stop ih =>
    have hlength : 0 < length := by
      have := lexeme_length_pos c cs
      rwa [hlexeme] at this
    have hsize := byteSize_pos c cs hlength
    refine ⟨Nat.le_refl _, ?_, ih⟩
    simp only [stop]
    omega

end Token

namespace Layout

theorem activeTokens_sublist (text : Text) (defines : List String) (regions : List Region)
    (tokens : List (Token × Span)) :
    (activeTokens text defines regions tokens).1.Sublist tokens := by
  fun_induction activeTokens text defines regions tokens with
  | case1 => exact List.Sublist.refl _
  | case2 _ _ _ _ _ ih => exact ih.cons _
  | case3 _ _ _ _ _ _ _ _ _ _ later tokens errors hlater ih =>
    rw [hlater] at ih
    exact (ih.trans (List.dropWhile_sublist _)).cons _
  | case4 _ _ _ tokens errors hrest _ _ _ ih =>
    rw [hrest] at ih
    exact ih.cons _
  | case5 _ _ _ tokens errors hrest _ _ _ _ ih =>
    rw [hrest] at ih
    exact ih.cons_cons _
  | case6 _ _ _ _ _ _ tokens errors hrest _ _ _ ih =>
    rw [hrest] at ih
    exact ih.cons_cons _
  | case7 _ _ _ _ _ _ tokens errors hrest _ ih =>
    rw [hrest] at ih
    exact ih.cons _

theorem place_spans (text : Text) (line? : Option Nat) (tokens : List (Token × Span)) :
    (place text line? tokens).map (·.span) = tokens.map (·.2) := by
  induction tokens generalizing line? with
  | nil => rfl
  | cons t ts ih => simp [place, ih]

end Layout

theorem significantTokens_ascend (text : Text) (defines : List String) :
    Span.Ascend 0 ((significantTokens text defines).1.map (·.span)) := by
  have htokens := Token.tokensFrom_ascend 0 text
  have hactive := Layout.activeTokens_sublist text defines [] (Token.tokens text)
  rw [significantTokens, Layout.place_spans]
  exact htokens.sublist (hactive.map _)

end ScriptAnalyzer

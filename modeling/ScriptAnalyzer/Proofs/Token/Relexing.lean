import ScriptAnalyzer.Proofs.Token.Delimited

/-!
The tokens of a text take everything but its blanks, and the texts of the tokens, each on a line of its own,
have the same tokens again.
-/

namespace ScriptAnalyzer
namespace Token

variable {text cs : Text}

theorem lexeme_cut (c : Char) (cs : Text) :
    (c :: cs).take (lexeme c cs).2 ++ cs.drop ((lexeme c cs).2 - 1) = c :: cs := by
  rw [List.take_cons (lexeme_length_pos c cs), List.cons_append, List.take_append_drop]

/-! What is left out -/

/-- The tokens lie apart and in order, and a byte that is in none of them is a blank. -/
structure Lossless (text : Text) (tokens : List (Token × Span)) : Prop where
  nonempty : ∀ t ∈ tokens, t.2.start < t.2.stop
  ordered : tokens.Pairwise fun s t => s.2.stop ≤ t.2.start
  boundary : ∀ t ∈ tokens, text.isBoundary t.2.start = true ∧ text.isBoundary t.2.stop = true
  blank : ∀ i < text.byteSize, (∀ t ∈ tokens, ¬(t.2.start ≤ i ∧ i < t.2.stop)) →
    ∃ c ∈ [' ', '\t', '\r', '\n', '\x0c'], ∃ rest, text.dropBytes? i = some (c :: rest)

theorem Stands.boundary {t : Token × Span} {before piece rest : Text} (h : Stands text t before piece rest) :
    text.isBoundary t.2.start = true ∧ text.isBoundary t.2.stop = true := by
  rw [h.span_eq, h.text_eq]
  constructor
  · rw [Text.isBoundary, Text.dropBytes?_byteSize]
    rfl
  · rw [← List.append_assoc, Text.isBoundary, Text.dropBytes?_byteSize]
    rfl

theorem mem_blanks {c : Char} (h : isBlank c = true) : c ∈ [' ', '\t', '\r', '\n', '\x0c'] := by
  simpa [isBlank, or_assoc] using h

theorem utf8Size_blank {c : Char} (h : isBlank c = true) : c.utf8Size = 1 := by
  have hmem := mem_blanks h
  simp only [List.mem_cons, List.not_mem_nil, or_false] at hmem
  rcases hmem with rfl | rfl | rfl | rfl | rfl <;> rfl

theorem tokensFrom_blank (before cs : Text) {i : Nat} (hfrom : Text.byteSize before ≤ i)
    (hto : i < Text.byteSize (before ++ cs))
    (hout : ∀ t ∈ tokensFrom (Text.byteSize before) cs, ¬(t.2.start ≤ i ∧ i < t.2.stop)) :
    ∃ c rest, isBlank c = true ∧ (before ++ cs).dropBytes? i = some (c :: rest) := by
  generalize hoffset : Text.byteSize before = offset at hfrom hout
  fun_induction tokensFrom offset cs generalizing before with
  | case1 =>
    rw [List.append_nil] at hto
    omega
  | case2 offset c cs hblank ih =>
    have hsize := utf8Size_blank hblank
    rcases Nat.eq_or_lt_of_le hfrom with rfl | hlt
    · exact ⟨c, cs, hblank, by rw [← hoffset, Text.dropBytes?_byteSize]⟩
    · have hbefore : Text.byteSize (before ++ [c]) = offset + c.utf8Size := by
        rw [Text.byteSize_append, hoffset]
        rfl
      have htext : before ++ [c] ++ cs = before ++ c :: cs := List.append_assoc _ _ _
      rw [← htext] at hto ⊢
      exact ih (before ++ [c]) hto hbefore (by omega) hout
  | case3 offset c cs hblank token length hlexeme rest stop ih =>
    have hcut := lexeme_cut c cs
    rw [hlexeme] at hcut
    have hbefore : Text.byteSize (before ++ (c :: cs).take length) = stop := by
      rw [Text.byteSize_append, hoffset]
    have htext : before ++ (c :: cs).take length ++ rest = before ++ c :: cs := by
      rw [List.append_assoc, hcut]
    have hfirst : ¬(offset ≤ i ∧ i < stop) := hout _ List.mem_cons_self
    rw [← htext] at hto ⊢
    exact ih _ hto hbefore (by omega) fun t ht => hout t (List.mem_cons_of_mem _ ht)

theorem tokens_lossless (text : Text) : Lossless text (tokens text) := by
  have hascend := tokensFrom_ascend 0 text
  refine ⟨fun t ht => (hascend.of_mem (List.mem_map_of_mem ht)).2, List.pairwise_map.mp hascend.pairwise,
    fun t ht => ?_, fun i hi hout => ?_⟩
  · obtain ⟨before, piece, rest, hstands⟩ := tokens_stand ht
    exact hstands.boundary
  · obtain ⟨c, rest, hblank, hdrop⟩ := tokensFrom_blank [] text (Nat.zero_le i) hi hout
    exact ⟨c, mem_blanks hblank, rest, hdrop⟩

/-! What is kept -/

/-- The tokens of a text, each with its own text. -/
def lexemes : Text → List (Token × Text)
  | [] => []
  | c :: cs =>
    if isBlank c then lexemes cs
    else ((lexeme c cs).1, (c :: cs).take (lexeme c cs).2) :: lexemes (cs.drop ((lexeme c cs).2 - 1))
termination_by cs => cs.length
decreasing_by all_goals simp +arith

/-- The tokens of a text, each with the text that its span covers. -/
def sliced (text : Text) : List (Token × Text) := (tokens text).map fun t => (t.1, (t.2.slice? text).getD [])

theorem tokensFrom_sliced (before cs : Text) :
    (tokensFrom (Text.byteSize before) cs).map (fun t => (t.1, (t.2.slice? (before ++ cs)).getD [])) =
      lexemes cs := by
  generalize hoffset : Text.byteSize before = offset
  fun_induction tokensFrom offset cs generalizing before with
  | case1 => rw [lexemes, List.map_nil]
  | case2 offset c cs hblank ih =>
    have hbefore : Text.byteSize (before ++ [c]) = offset + c.utf8Size := by
      rw [Text.byteSize_append, hoffset]
      rfl
    have htext : before ++ [c] ++ cs = before ++ c :: cs := List.append_assoc _ _ _
    rw [lexemes, if_pos hblank, ← htext]
    exact ih (before ++ [c]) hbefore
  | case3 offset c cs hblank token length hlexeme rest stop ih =>
    have hcut := lexeme_cut c cs
    rw [hlexeme] at hcut
    have hbefore : Text.byteSize (before ++ (c :: cs).take length) = stop := by
      rw [Text.byteSize_append, hoffset]
    have htext : before ++ (c :: cs).take length ++ rest = before ++ c :: cs := by
      rw [List.append_assoc, hcut]
    have hslice : Span.slice? ⟨offset, stop⟩ (before ++ c :: cs) = some ((c :: cs).take length) := by
      rw [← hbefore, ← hoffset, ← htext, List.append_assoc, Text.slice?_byteSize]
    rw [lexemes, if_neg hblank, List.map_cons, hslice, hlexeme, ← htext, ih _ hbefore]
    rfl

theorem sliced_eq (text : Text) : sliced text = lexemes text := tokensFrom_sliced [] text

theorem lexemes_blank {c : Char} (h : isBlank c = true) (cs : Text) : lexemes (c :: cs) = lexemes cs := by
  rw [lexemes, if_pos h]

theorem lexemes_token {c : Char} (h : ¬isBlank c = true) (cs : Text) : lexemes (c :: cs) =
    ((lexeme c cs).1, (c :: cs).take (lexeme c cs).2) :: lexemes (cs.drop ((lexeme c cs).2 - 1)) := by
  rw [lexemes, if_neg h]

/-- The texts one below the other. -/
def stacked (pieces : List Text) : Text := ['\n'].intercalate pieces

/-- What follows the first text in a stack. -/
theorem exists_stacked (piece : Text) (pieces : List Text) : ∃ below, stacked (piece :: pieces) = piece ++ below ∧
    Delimits below ∧ (pieces = [] → below = []) ∧ lexemes below = lexemes (stacked pieces) := by
  cases pieces with
  | nil => exact ⟨[], by simp [stacked], nofun, fun _ => rfl, rfl⟩
  | cons next pieces =>
    refine ⟨'\n' :: stacked (next :: pieces), by simp [stacked], ?_, nofun, lexemes_blank rfl _⟩
    rintro c ⟨⟩
    rfl

theorem lexemes_stacked (cs : Text) : lexemes (stacked ((lexemes cs).map (·.2))) = lexemes cs := by
  -- on the lexing of the text: its first token is read again, and what follows in the stack is a line feed
  -- or nothing
  fun_induction lexemes cs with
  | case1 =>
    have hnone : stacked [] = [] := rfl
    rw [List.map_nil, hnone, lexemes]
  | case2 c cs hblank ih => exact ih
  | case3 c cs hblank ih =>
    obtain ⟨below, hstacked, hdelimits, hlast, hbelow⟩ := exists_stacked ((c :: cs).take (lexeme c cs).2)
      ((lexemes (cs.drop ((lexeme c cs).2 - 1))).map (·.2))
    have hagain := lexeme_again c cs hdelimits fun hnone => hlast (by rw [hnone, lexemes, List.map_nil])
    have hlength : (cs.take ((lexeme c cs).2 - 1)).length = (lexeme c cs).2 - 1 := by
      rw [List.length_take_of_le]
      have hle := lexeme_length_le c cs
      omega
    rw [List.map_cons, hstacked, List.take_cons (lexeme_length_pos c cs), List.cons_append,
      lexemes_token hblank, hagain, List.drop_left' hlength, hbelow, ih,
      List.take_cons (lexeme_length_pos c cs), List.take_left' hlength]

/-- Lexing loses nothing, and each token is found again in its own text. -/
theorem tokens_lossless_and_self_delimiting (text : Text) :
    Lossless text (tokens text) ∧ sliced (['\n'].intercalate ((sliced text).map (·.2))) = sliced text := by
  refine ⟨tokens_lossless text, ?_⟩
  rw [sliced_eq, sliced_eq]
  exact lexemes_stacked text

end Token
end ScriptAnalyzer

import ScriptAnalyzer.Proofs.Token.Spelling
import ScriptAnalyzer.Proofs.Token.Writing

/-!
The contents of literals, and where in the text the characters of a string are written. An escape takes one byte
more in the text than in the contents, all other characters take the same bytes in both. Where the closing quote is
missing, an escaped quote at the end is taken for it.
-/

namespace ScriptAnalyzer

namespace Text

variable {rest : Text}

theorem isBoundary_append (before rest : Text) (n : Nat) :
    (before ++ rest).isBoundary (byteSize before + n) = rest.isBoundary n := by
  induction before with
  | nil => rw [byteSize, Nat.zero_add, List.nil_append]
  | cons c cs ih =>
    have hpos := c.utf8Size_pos
    rw [← ih, List.cons_append, byteSize, isBoundary, isBoundary]
    obtain ⟨m, hm⟩ : ∃ m, c.utf8Size + byteSize cs + n = m + 1 := ⟨c.utf8Size + byteSize cs + n - 1, by omega⟩
    rw [hm, dropBytes?, if_pos (by omega), show m + 1 - c.utf8Size = byteSize cs + n by omega]

/-- No character starts inside of another one. -/
theorem isBoundary_one {c : Char} : isBoundary (c :: rest) 1 = true ↔ c.utf8Size = 1 := by
  have hpos := c.utf8Size_pos
  rw [isBoundary, dropBytes?, Nat.zero_add]
  split
  case isTrue h =>
    rw [Nat.sub_eq_zero_of_le hpos, dropBytes?]
    exact iff_of_true rfl (Nat.le_antisymm h hpos)
  case isFalse h => exact iff_of_false (by simp) fun heq => h (Nat.le_of_eq heq)

end Text

namespace Literal

variable {cs : Text} {offset place i : Nat}

/-- The contents of a literal whose inside starts at `offset`, each character with the byte that it is written
at. What a backslash takes is written behind the backslash. -/
def placed (offset : Nat) : Text → List (Char × Nat)
  | [] => []
  | ['\\'] => [('\\', offset)]
  | '\\' :: c :: cs => (escaped c, offset + 1) :: placed (offset + 1 + c.utf8Size) cs
  | c :: cs => (c, offset) :: placed (offset + c.utf8Size) cs

theorem map_fst_placed (offset : Nat) (cs : Text) : (placed offset cs).map Prod.fst = decode cs := by
  fun_induction placed offset cs with
  | case1 | case2 => rfl
  | case3 offset c cs ih => rw [List.map_cons, ih, decode]
  | case4 offset c cs hend hescape ih => rw [List.map_cons, ih, decode.eq_4 c cs hend hescape]

theorem decode_plain {c : Char} (hslash : c ≠ '\\') (cs : Text) : decode (c :: cs) = c :: decode cs :=
  decode.eq_4 c cs (fun h => absurd h hslash) fun _ _ h => absurd h hslash

theorem utf8Size_escaped (c : Char) : (escaped c).utf8Size = c.utf8Size := by
  fun_cases escaped c <;> rfl

theorem escaped_eq_percent {c : Char} (h : escaped c = '%') : c = '%' := by
  revert h
  fun_cases escaped c
  case case5 => exact id
  all_goals decide

/-- A percent sign of the contents is a percent sign of the text. What stands in front of it takes as many bytes
in the contents as in the text if it has no escapes, else fewer. -/
theorem exists_percent (h : (placed offset cs)[i]? = some ('%', place)) :
    ∃ front behind, cs = front ++ '%' :: behind ∧ place = offset + Text.byteSize front ∧
      Text.byteSize ((decode cs).take i) ≤ Text.byteSize front ∧
      (Text.byteSize ((decode cs).take i) = Text.byteSize front ↔ '\\' ∉ front) := by
  fun_induction placed offset cs generalizing i with
  | case1 => cases h
  | case2 offset =>
    cases i with
    | zero => cases h
    | succ i => cases h
  | case3 offset c cs ih =>
    rw [decode]
    cases i with
    | zero =>
      -- an escape stands for a percent sign only if the character behind the backslash is one
      obtain ⟨hc, rfl⟩ := Prod.mk.inj (Option.some.inj h)
      exact ⟨['\\'], cs, by rw [escaped_eq_percent hc]; rfl, rfl, Nat.zero_le _,
        iff_of_false Nat.zero_ne_one fun h => h List.mem_cons_self⟩
    | succ i =>
      obtain ⟨front, behind, rfl, hplace, hle, -⟩ := ih h
      have hslash : Char.utf8Size '\\' = 1 := rfl
      refine ⟨'\\' :: c :: front, behind, rfl, ?_, ?_, ?_⟩
      all_goals simp only [List.take_succ_cons, Text.byteSize, utf8Size_escaped, hslash]
      · omega
      · omega
      · exact iff_of_false (by omega) fun h => h List.mem_cons_self
  | case4 offset c cs hend hescape ih =>
    rw [decode.eq_4 c cs hend hescape]
    cases i with
    | zero =>
      obtain ⟨rfl, rfl⟩ := Prod.mk.inj (Option.some.inj h)
      exact ⟨[], cs, rfl, rfl, Nat.le_refl _, iff_of_true rfl List.not_mem_nil⟩
    | succ i =>
      obtain ⟨front, behind, rfl, hplace, hle, hiff⟩ := ih h
      have hc : '\\' ≠ c := by
        rintro rfl
        cases hcs : front ++ '%' :: behind with
        | nil => exact hend rfl hcs
        | cons d ds => exact hescape d ds rfl hcs
      refine ⟨c :: front, behind, rfl, ?_, ?_, ?_⟩
      all_goals simp only [List.take_succ_cons, Text.byteSize]
      · omega
      · omega
      · rw [List.mem_cons, not_or, and_iff_right hc, ← hiff]
        omega

/-- The contents are the inside of the literal, up to the closing quote if there is one. -/
theorem exists_closing (quote : Char) (cs : Text) :
    ∃ closing, (closing = [] ∨ closing = [quote]) ∧ cs = body (quote :: cs) ++ closing := by
  by_cases h : cs.getLast? = some quote
  · obtain ⟨inside, rfl⟩ := List.getLast?_eq_some_iff.mp h
    exact ⟨[quote], .inr rfl, by rw [body, if_pos h, List.dropLast_concat]⟩
  · refine ⟨[], .inl rfl, ?_⟩
    rw [body, if_neg h, List.append_nil]

end Literal

namespace Token

variable {t : Token × Span} {c : Char} {cs text : Text} {raw value : String} {span : Span}

/-- The token is a string literal at the place, closed or not, with this value. -/
structure Writes (t : Token × Span) (span : Span) (value : String) : Prop where
  span_eq : t.2 = span
  quoted : ∃ raw, (t.1 = .string raw ∨ t.1 = .unclosedString raw) ∧
    value = String.ofList (Literal.unquote raw.toList)

/-- The text of a quoted literal is one that the pattern of its token admits. -/
theorem lexeme_admits_literal (h : (lexeme c cs).1 = .string raw ∨ (lexeme c cs).1 = .unclosedString raw ∨
    (lexeme c cs).1 = .char raw) : Admits (lexeme c cs).1 ((c :: cs).take (lexeme c cs).2) := by
  by_cases hcomment : ∃ ds, c = '(' ∧ cs = '*' :: ds
  · obtain ⟨ds, rfl, rfl⟩ := hcomment
    rw [lexeme_comment] at h
    cases hfound : commentLength? 0 ds <;> rw [hfound] at h <;> rcases h with h | h | h <;> cases h
  have hplain : ∀ ds, c :: cs ≠ '(' :: '*' :: ds := fun ds h =>
    hcomment ⟨ds, (List.cons.inj h).1, (List.cons.inj h).2⟩
  refine (lexeme_admits hplain).resolve_left fun herror => ?_
  rw [herror] at h
  rcases h with h | h | h <;> cases h

theorem Admits.string_eq {token : Token} {piece : Text} (h : Admits token piece)
    (hquoted : token = .string raw ∨ token = .unclosedString raw) :
    raw.toList = piece ∧ ∃ inside, piece = '"' :: inside := by
  rcases hquoted with rfl | rfl
  all_goals
    cases h
    exact ⟨String.toList_ofList, _, rfl⟩

/-- A string literal in its text: the quote, the contents that its value is decoded from, and the closing quote
unless it is missing. -/
theorem Writes.exists_contents (h : Writes t span value) (ht : t ∈ tokens text) :
    ∃ before contents closing rest, (closing = [] ∨ closing = ['"']) ∧
      text = before ++ ('"' :: (contents ++ closing) ++ rest) ∧
      span = ⟨Text.byteSize before, Text.byteSize (before ++ '"' :: (contents ++ closing))⟩ ∧
      value.toList = Literal.decode contents := by
  obtain ⟨before, piece, rest, hstands⟩ := tokens_stand ht
  obtain ⟨raw, hquoted, rfl⟩ := h.quoted
  obtain ⟨c, cs, htoken, hpiece⟩ := hstands.lexed
  have hadmits : Admits t.1 piece := by
    rw [htoken, hpiece]
    exact lexeme_admits_literal (htoken ▸ hquoted.imp_right Or.inl)
  obtain ⟨hraw, inside, rfl⟩ := hadmits.string_eq hquoted
  obtain ⟨closing, hclosing, hinside⟩ := Literal.exists_closing '"' inside
  refine ⟨before, Literal.body ('"' :: inside), closing, rest, hclosing, ?_, ?_, ?_⟩
  · rw [← hinside]
    exact hstands.text_eq
  · rw [← h.span_eq, ← hinside]
    exact hstands.span_eq
  · rw [hraw, String.toList_ofList, Literal.unquote]

end Token

/-- A percent sign in a string literal of the text, at a byte of the value of the literal. In the text `before`
stands in front of the literal, and inside of it `front` and `behind` stand around the percent sign. -/
structure PercentSign (text : Text) (span : Span) (value : Text) (offset : Nat) (before front behind : Text) :
    Prop where
  literal : ∃ closing rest, (closing = [] ∨ closing = ['"']) ∧
    text = before ++ ('"' :: (front ++ '%' :: behind ++ closing) ++ rest) ∧
    span = ⟨Text.byteSize before, Text.byteSize (before ++ '"' :: (front ++ '%' :: behind ++ closing))⟩
  value_eq : value = Literal.decode (front ++ '%' :: behind)
  percent : ∃ i, Text.byteSize (value.take i) = offset ∧
    (Literal.placed (Text.byteSize before + 1) (front ++ '%' :: behind))[i]? =
      some ('%', Text.byteSize (before ++ '"' :: front))

/-- Each percent sign of the value stands in the text, and at the same byte of the literal if no escape stands in
front of it. -/
theorem exists_percentSign {t : Token × Span} {text : Text} {span : Span} {value : String} {i : Nat}
    (h : Token.Writes t span value) (ht : t ∈ Token.tokens text) (hi : value.toList[i]? = some '%') :
    ∃ before front behind,
      PercentSign text span value.toList (Text.byteSize (value.toList.take i)) before front behind ∧
      Text.byteSize (value.toList.take i) ≤ Text.byteSize front ∧
      (Text.byteSize (value.toList.take i) = Text.byteSize front ↔ '\\' ∉ front) := by
  obtain ⟨before, contents, closing, rest, hclosing, htext, hspan, hvalue⟩ := h.exists_contents ht
  rw [hvalue, ← Literal.map_fst_placed (Text.byteSize before + 1), List.getElem?_map] at hi
  obtain ⟨⟨_, place⟩, hplaced, rfl⟩ := Option.map_eq_some_iff.mp hi
  obtain ⟨front, behind, rfl, rfl, hle, hiff⟩ := Literal.exists_percent hplaced
  have hplace : Text.byteSize before + 1 + Text.byteSize front = Text.byteSize (before ++ '"' :: front) := by
    rw [Text.byteSize_append, Text.byteSize, Nat.add_assoc]
    rfl
  refine ⟨before, front, behind, ⟨⟨closing, rest, hclosing, htext, hspan⟩, hvalue, i, rfl, ?_⟩, ?_⟩
  · rw [← hplace]
    exact hplaced
  · rw [hvalue]
    exact ⟨hle, hiff⟩

/-! The missing quote -/

namespace Token

open Literal (decode unquote)

variable {token : Token} {t : Token × Span} {piece inside text : Text} {raw : String}

/-- The text of a quoted literal, and what stands between its quotes. An unclosed string has the first quote only. -/
inductive Encloses : Token → (raw inside : Text) → Prop
  | string {inside : Text} :
      Encloses (string (String.ofList ('"' :: inside ++ ['"']))) ('"' :: inside ++ ['"']) inside
  | unclosedString {inside : Text} :
      Encloses (unclosedString (String.ofList ('"' :: inside))) ('"' :: inside) inside
  | char {inside : Text} :
      Encloses (char (String.ofList ('\'' :: inside ++ ['\'']))) ('\'' :: inside ++ ['\'']) inside

theorem Body.decode_append (h : Body inside) (cs : Text) : decode (inside ++ cs) = decode inside ++ decode cs := by
  induction h with
  | nil => rfl
  | @plain c body _ hslash _ _ ih =>
    rw [List.cons_append, Literal.decode_plain hslash, Literal.decode_plain hslash, ih, List.cons_append]
  | @escape c body _ _ ih => rw [List.cons_append, List.cons_append, decode, decode, ih, List.cons_append]

/-- Only behind a backslash a string has a quote inside. -/
theorem Body.ends_escaped (h : Body inside) (hquote : inside.getLast? = some '"') :
    ∃ front, Body front ∧ inside = front ++ ['\\', '"'] := by
  induction h with
  | nil => cases hquote
  | @plain c body hc hslash hline _ ih =>
    cases body with
    | nil => exact absurd (Option.some.inj hquote) hc
    | cons d body =>
      obtain ⟨front, hfront, hbody⟩ := ih (by rwa [List.getLast?_cons_cons] at hquote)
      exact ⟨c :: front, .plain hc hslash hline hfront, by rw [hbody]; rfl⟩
  | @escape c body hline _ ih =>
    cases body with
    | nil =>
      obtain rfl : c = '"' := Option.some.inj hquote
      exact ⟨[], .nil, rfl⟩
    | cons d body =>
      obtain ⟨front, hfront, hbody⟩ := ih (by rwa [List.getLast?_cons_cons, List.getLast?_cons_cons] at hquote)
      exact ⟨'\\' :: c :: front, .escape hline hfront, by rw [hbody]; rfl⟩

/-- The value of an unclosed string is the decoded inside, unless an escaped quote at its end is taken for the
closing one. -/
theorem Body.unquote_iff (h : Body inside) : unquote ('"' :: inside) = decode inside ↔ ¬['\\', '"'] <:+ inside := by
  by_cases hquote : inside.getLast? = some '"'
  · obtain ⟨front, hfront, rfl⟩ := h.ends_escaped hquote
    refine iff_of_false (fun heq => ?_) (not_not_intro (List.suffix_append _ _))
    have htaken : unquote ('"' :: (front ++ ['\\', '"'])) = decode front ++ ['\\'] := by
      rw [unquote, Literal.body, if_pos hquote, List.append_cons, List.dropLast_concat, hfront.decode_append]
      rfl
    rw [htaken, hfront.decode_append] at heq
    exact absurd (List.append_cancel_left heq) (by decide)
  · rw [unquote, Literal.body, if_neg hquote]
    refine iff_of_true rfl ?_
    rintro ⟨front, rfl⟩
    exact hquote (by rw [List.append_cons, List.getLast?_concat])

theorem Admits.exists_inside (h : Admits token piece)
    (hliteral : token = .string raw ∨ token = .unclosedString raw ∨ token = .char raw) :
    raw.toList = piece ∧ ∃ inside, token.Encloses piece inside ∧ (token = .unclosedString raw → Body inside) := by
  rcases hliteral with rfl | rfl | rfl
  · cases h
    exact ⟨String.toList_ofList, _, .string, by rintro ⟨⟩⟩
  · cases h with
    | unclosedString hbody => exact ⟨String.toList_ofList, _, .unclosedString, fun _ => hbody⟩
  · cases h with
    | @char c => exact ⟨String.toList_ofList, [c], @Encloses.char [c], by rintro ⟨⟩⟩
    | @escapedChar c => exact ⟨String.toList_ofList, ['\\', c], @Encloses.char ['\\', c], by rintro ⟨⟩⟩

theorem Encloses.of_unclosed (h : Encloses (.unclosedString raw) piece inside) : piece = '"' :: inside := by
  cases h
  rfl

theorem Encloses.unquote_iff (h : token.Encloses piece inside) (hraw : raw.toList = piece)
    (hbody : token = .unclosedString raw → Body inside) :
    unquote piece = decode inside ↔ ¬(token = .unclosedString raw ∧ ['\\', '"'] <:+ inside) := by
  cases h with
  | string | char =>
    rw [Literal.unquote_quoted]
    exact iff_of_true rfl fun h => by cases h.1
  | unclosedString =>
    have htoken : Token.unclosedString (String.ofList ('"' :: inside)) = .unclosedString raw := by
      rw [← hraw, String.ofList_toList]
    rw [and_iff_right htoken]
    exact (hbody htoken).unquote_iff

/-- The value of a quoted literal is what stands between its quotes, with the escapes decoded, and does not depend on
a missing quote, if and only if no escaped quote stands at the end of an unclosed string. -/
theorem unquote_decodes_iff (ht : t ∈ tokens text)
    (hliteral : t.1 = .string raw ∨ t.1 = .unclosedString raw ∨ t.1 = .char raw) :
    ∃ inside, t.1.Encloses raw.toList inside ∧
      (unquote raw.toList = decode inside ↔ ¬(t.1 = .unclosedString raw ∧ ['\\', '"'] <:+ inside)) ∧
      (t.1 = .unclosedString raw →
        (unquote raw.toList = unquote (raw.toList ++ ['"']) ↔ ¬['\\', '"'] <:+ inside)) := by
  obtain ⟨before, piece, rest, hstands⟩ := tokens_stand ht
  obtain ⟨c, cs, htoken, hpiece⟩ := hstands.lexed
  have hadmits : Admits t.1 piece := by
    rw [htoken, hpiece]
    exact lexeme_admits_literal (htoken ▸ hliteral)
  obtain ⟨rfl, inside, hencloses, hbody⟩ := hadmits.exists_inside hliteral
  have hdecodes := hencloses.unquote_iff rfl hbody
  refine ⟨inside, hencloses, hdecodes, fun hunclosed => ?_⟩
  rw [hunclosed] at hencloses hdecodes
  have hclosed : unquote (raw.toList ++ ['"']) = decode inside := by
    rw [hencloses.of_unclosed]
    exact Literal.unquote_quoted '"' inside
  rw [hclosed, hdecodes, and_iff_right rfl]

/-- The quote in an unclosed string is escaped, and more of the string follows. -/
theorem openString_decoded :
    let t : Token × Span := (.unclosedString "\"a\\\"b\\n", ⟨8, 15⟩)
    let raw := "\"a\\\"b\\n".toList
    t ∈ tokens "let x = \"a\\\"b\\n".toList ∧ ∃ inside, t.1.Encloses raw inside ∧
      Literal.unquote raw = Literal.decode inside ∧ Literal.unquote raw = Literal.unquote (raw ++ ['"']) := by
  intro t raw
  have ht : t ∈ tokens "let x = \"a\\\"b\\n".toList := by decide +kernel
  obtain ⟨inside, hencloses, hdecodes, hmissing⟩ := unquote_decodes_iff ht (.inr (.inl rfl))
  have hgoes : ¬['\\', '"'] <:+ inside := by
    rw [← (List.cons.inj hencloses.of_unclosed).2]
    decide
  exact ⟨ht, inside, hencloses, hdecodes.mpr fun h => hgoes h.2, (hmissing rfl).mpr hgoes⟩

/-- The escaped quote at the end of an unclosed string is taken for the closing one, and its backslash is left. -/
theorem escapedQuote_taken :
    let t : Token × Span := (.unclosedString "\"a\\\"", ⟨8, 12⟩)
    let raw := "\"a\\\"".toList
    t ∈ tokens "let x = \"a\\\"".toList ∧ t.1.Encloses raw ['a', '\\', '"'] ∧
      Literal.unquote raw = ['a', '\\'] ∧ Literal.decode ['a', '\\', '"'] = ['a', '"'] ∧
      Literal.unquote (raw ++ ['"']) = ['a', '"'] :=
  ⟨by decide +kernel, .unclosedString, rfl, rfl, rfl⟩

end Token
end ScriptAnalyzer

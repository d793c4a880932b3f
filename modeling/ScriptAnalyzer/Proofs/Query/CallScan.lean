import ScriptAnalyzer.Query.NamePath
import ScriptAnalyzer.Proofs.Token.Brackets
import ScriptAnalyzer.Proofs.Token.Contents
import ScriptAnalyzer.Proofs.Token.Relexing

/-!
The call around a column, as the tokens in front of the column have it. The scan of the line knows strings, but
neither character literals nor comments, and of the brackets only parentheses.

Main statement: where literals and comments hold nothing that the scan heeds, it finds a call if the tokens
leave a parenthesis open, and the argument that they say unless a comma stands in other brackets.
-/

namespace ScriptAnalyzer

/-- The characters that the scan of a line heeds. -/
def isHeeded (c : Char) : Bool := c == '"' || c == '(' || c == ')' || c == ','

/-- No character of the text is heeded. -/
def Unheeded (piece : Text) : Prop := ∀ c ∈ piece, isHeeded c = false

instance (piece : Text) : Decidable (Unheeded piece) :=
  List.decidableBAll (fun c => isHeeded c = false) piece

variable {opened inner : List OpenParen} {column : Nat} {c : Char} {cs piece body rest : Text}

attribute [grind =] openParens

/-- The scan heeds quotes, parentheses and commas. -/
theorem isHeeded_eq_false : isHeeded c = false ↔ c ≠ '"' ∧ c ≠ '(' ∧ c ≠ ')' ∧ c ≠ ',' := by
  simp [isHeeded, and_assoc]

theorem openParens_cons (h : isHeeded c = false) : openParens opened .code column (c :: cs) =
    openParens opened .code (column + 1) cs := by
  obtain ⟨hquote, hopen, hclose, hcomma⟩ := isHeeded_eq_false.mp h
  rw [openParens]
  · exact hquote
  · exact hopen
  · exact hclose
  · exact fun _ _ hc _ => hcomma hc

theorem unheeded_cons : Unheeded (c :: piece) ↔ isHeeded c = false ∧ Unheeded piece := List.forall_mem_cons

theorem unheeded_append : Unheeded (piece ++ rest) ↔ Unheeded piece ∧ Unheeded rest := List.forall_mem_append

theorem openParens_unheeded (h : Unheeded piece) (opened : List OpenParen) (column : Nat) :
    openParens opened .code column (piece ++ rest) = openParens opened .code (column + piece.length) rest := by
  induction piece generalizing column with
  | nil => rfl
  | cons c piece ih =>
    obtain ⟨hc, hpiece⟩ := unheeded_cons.mp h
    rw [List.cons_append, openParens_cons hc, ih hpiece, List.length_cons, Nat.add_assoc, Nat.add_comm 1]

/-! Strings -/

theorem openParens_body (h : Token.Body body) (opened : List OpenParen) (column : Nat) :
    openParens opened .string column (body ++ rest) =
      openParens opened .string (column + body.length) rest := by
  induction h generalizing column with
  | nil => rfl
  | plain hquote hescape hline _ ih =>
    rw [List.cons_append, openParens, if_neg hescape, if_neg hquote, ih, List.length_cons]
    congr 1
    omega
  | escape hline _ ih =>
    rw [List.cons_append, List.cons_append, openParens, if_pos rfl, openParens, ih, List.length_cons,
      List.length_cons]
    congr 1
    omega

/-- A string that is not closed reaches to the end of the line. -/
theorem openParens_unclosed (hline : '\n' ∉ cs) (h : (Token.stringLength cs).2 = false)
    (opened : List OpenParen) (column : Nat) : openParens opened .string column cs = opened ∧
      (cs.drop (Token.stringLength cs).1 = [] ∨ cs.drop (Token.stringLength cs).1 = ['\\']) := by
  fun_induction Token.stringLength cs generalizing column with
  | case1 => exact ⟨rfl, .inl rfl⟩
  | case2 => cases h
  | case3 => simp at hline
  | case4 => exact ⟨rfl, .inr rfl⟩
  | case5 => simp at hline
  | case6 c cs hc r ih =>
    obtain ⟨hopened, hrest⟩ := ih (fun hmem => hline (by simp [hmem])) h (column + 1 + 1)
    refine ⟨?_, hrest⟩
    rw [openParens, if_pos rfl, openParens]
    exact hopened
  | case7 c cs hquote hend hlast hnext hescaped r ih =>
    obtain ⟨hopened, hrest⟩ := ih (fun hmem => hline (List.mem_cons_of_mem c hmem)) h (column + 1)
    refine ⟨?_, hrest⟩
    rw [openParens, if_neg (Token.not_escape hlast hescaped), if_neg hquote]
    exact hopened

/-! Comments -/

/-- Whether a text has no quote, and of parentheses only those of the marks of comments. -/
def marksOnly : Text → Bool
  | '(' :: '*' :: cs => marksOnly cs
  | '*' :: ')' :: cs => marksOnly cs
  | c :: cs => !(c == '"' || c == '(' || c == ')') && marksOnly cs
  | [] => true

theorem marksOnly_cons {d : Char} (hopen : ¬(c = '(' ∧ d = '*')) (hclose : ¬(c = '*' ∧ d = ')')) :
    marksOnly (c :: d :: cs) = (!(c == '"' || c == '(' || c == ')') && marksOnly (d :: cs)) := by
  rw [marksOnly]
  · exact fun ds hc hds => hopen ⟨hc, (List.cons.inj hds).1⟩
  · exact fun ds hc hds => hclose ⟨hc, (List.cons.inj hds).1⟩

theorem isHeeded_of_unmarked (h : (!(c == '"' || c == '(' || c == ')')) = true) (hcomma : c ≠ ',') :
    isHeeded c = false := by
  simp only [Bool.not_eq_true', Bool.or_eq_false_iff, beq_eq_false_iff_ne, and_assoc] at h
  exact isHeeded_eq_false.mpr ⟨h.1, h.2.1, h.2.2, hcomma⟩

/-- The parentheses of the marks of a comment close one another, and take its commas with them. -/
theorem openParens_comment {depth n : Nat} (h : Token.commentLength? depth cs = some n)
    (hmarks : marksOnly (cs.take n) = true) (hinner : inner.length = depth + 1) (opened : List OpenParen)
    (column : Nat) : openParens (inner ++ opened) .code column cs =
      openParens opened .code (column + n) (cs.drop n) := by
  have hstar : isHeeded '*' = false := by decide
  -- by the recursion of the comment: at depth `depth` the scan of the line is inside the parentheses `inner` of
  -- its marks, of which the last one closes the comment
  fun_induction Token.commentLength? depth cs generalizing n inner column with
  | case1 depth cs ih =>
    obtain ⟨m, hm, rfl⟩ := Option.map_eq_some_iff.mp h
    rw [List.take_succ_cons, List.take_succ_cons, marksOnly] at hmarks
    have hmore : (⟨column, 0⟩ :: inner).length = depth + 1 + 1 := by rw [List.length_cons, hinner]
    have hscan := ih hm hmarks hmore (column + 2)
    rw [openParens, openParens_cons hstar, List.drop_succ_cons, List.drop_succ_cons, Nat.add_comm m,
      ← Nat.add_assoc]
    exact hscan
  | case2 cs =>
    obtain rfl := Option.some.inj h
    obtain ⟨p, rfl⟩ := List.length_eq_one_iff.mp hinner
    rw [openParens_cons hstar, openParens]
    rfl
  | case3 depth cs ih =>
    obtain ⟨m, hm, rfl⟩ := Option.map_eq_some_iff.mp h
    rw [List.take_succ_cons, List.take_succ_cons, marksOnly] at hmarks
    cases inner with
    | nil => cases hinner
    | cons p inner =>
      rw [openParens_cons hstar, openParens, List.drop_succ_cons, List.drop_succ_cons, Nat.add_comm m,
        ← Nat.add_assoc]
      exact ih hm hmarks (Nat.succ.inj hinner) (column + 2)
  | case4 depth c cs hopen hclose hcloses ih =>
    obtain ⟨m, hm, rfl⟩ := Option.map_eq_some_iff.mp h
    have hpos := Token.commentLength?_pos hm
    obtain ⟨d, ds, rfl⟩ : ∃ d ds, cs = d :: ds := by
      cases cs with
      | nil => cases hm
      | cons d ds => exact ⟨d, ds, rfl⟩
    obtain ⟨k, rfl⟩ : ∃ k, m = k + 1 := ⟨m - 1, by omega⟩
    rw [List.take_succ_cons, List.take_succ_cons, marksOnly_cons, Bool.and_eq_true] at hmarks
    · rw [List.drop_succ_cons, Nat.add_comm _ 1, ← Nat.add_assoc]
      -- a comma counts in the innermost of these parentheses, and is forgotten with it
      by_cases hcomma : c = ','
      · cases inner with
        | nil => cases hinner
        | cons p inner =>
          subst hcomma
          have hsame : ({ p with commas := p.commas + 1 } :: inner).length = depth + 1 := hinner
          exact ih hm hmarks.2 hsame (column + 1)
      · rw [openParens_cons (isHeeded_of_unmarked hmarks.1 hcomma)]
        exact ih hm hmarks.2 hinner (column + 1)
    · rintro ⟨rfl, rfl⟩
      exact hopen ds rfl rfl
    · rintro ⟨rfl, rfl⟩
      cases depth with
      | zero => exact hclose ds rfl rfl rfl
      | succ depth => exact hcloses depth ds rfl rfl rfl
  | case5 => cases h

/-! Tokens -/

namespace Token

variable {t : Token}

/-- Whether the scan passes over the token, where it should: literals and comments, these beside their marks. -/
def isPassed : Token → Text → Bool
  | .char _, piece | .lineComment _, piece | .error, piece => decide (Unheeded piece)
  | .blockComment, piece => marksOnly piece
  | _, _ => true

theorem isHeeded_of_continuesName (h : continuesName c = true) : isHeeded c = false := by
  refine isHeeded_eq_false.mpr ⟨?_, ?_, ?_, ?_⟩ <;> rintro rfl <;> exact absurd h (by decide)

theorem isHeeded_of_isBlank (h : isBlank c = true) : isHeeded c = false := by
  refine isHeeded_eq_false.mpr ⟨?_, ?_, ?_, ?_⟩ <;> rintro rfl <;> exact absurd h (by decide)

theorem unheeded_name (h : ∀ c ∈ piece, continuesName c = true) : Unheeded piece :=
  fun c hc => isHeeded_of_continuesName (h c hc)

theorem continuesName_of_continuesTypeVar (h : continuesTypeVar c = true) : continuesName c = true := by
  rw [continuesName, h, Bool.true_or]

theorem continuesName_of_isDigit (h : isDigit c = true) : continuesName c = true :=
  continuesName_of_continuesTypeVar (by rw [continuesTypeVar, h, Bool.or_true])

theorem continuesName_of_isLetter (h : isLetter c = true) : continuesName c = true :=
  continues_of_starts (by rw [startsName, h, Bool.true_or])

theorem Digits.unheeded (h : Digits piece) : Unheeded piece :=
  unheeded_name fun c hc => continuesName_of_isDigit (h.all c hc)

theorem Fraction.unheeded (h : Fraction piece) : Unheeded piece := by
  obtain ⟨hds⟩ := h
  exact unheeded_cons.mpr ⟨by decide, hds.unheeded⟩

theorem Exponent.unheeded (h : Exponent piece) : Unheeded piece := by
  have hmark {c : Char} (h : (c == 'e' || c == 'E') = true) : isHeeded c = false := by
    rcases Bool.or_eq_true_iff.mp h with h | h <;> rw [eq_of_beq h] <;> decide
  have hsign {c : Char} (h : (c == '+' || c == '-') = true) : isHeeded c = false := by
    rcases Bool.or_eq_true_iff.mp h with h | h <;> rw [eq_of_beq h] <;> decide
  obtain ⟨he, hds⟩ | ⟨he, hs, hds⟩ := h
  · exact unheeded_cons.mpr ⟨hmark he, hds.unheeded⟩
  · exact unheeded_cons.mpr ⟨hmark he, unheeded_cons.mpr ⟨hsign hs, hds.unheeded⟩⟩

/-- The scan goes from one token to the next, and does with it what its class says. -/
def Steps (t : Token) (piece : Text) : Prop :=
  ∀ (opened : List OpenParen) (column : Nat) (rest : Text), ∃ opened',
    openParens opened .code column (piece ++ rest) =
      openParens opened' .code (column + piece.length) rest ∧
    opened'.map (·.commas) = collect (opened.map (·.commas)) t

theorem steps_of_unheeded (h : Unheeded piece) (ht : ∀ ns, collect ns t = ns) : Steps t piece :=
  fun opened column _ => ⟨opened, openParens_unheeded h opened column, (ht _).symm⟩

theorem punct_steps (p : Punct) : Steps (.punct p) p.text.toList := by
  cases p with
  | lparen => exact fun opened column rest => ⟨⟨column, 0⟩ :: opened, rfl, rfl⟩
  | rparen => exact fun opened column rest => ⟨opened.tail, rfl, List.map_tail⟩
  | comma =>
    intro opened column rest
    cases opened with
    | nil => exact ⟨[], rfl, rfl⟩
    | cons p outer => exact ⟨{ p with commas := p.commas + 1 } :: outer, rfl, rfl⟩
  | _ => exact steps_of_unheeded (by decide) fun _ => rfl

/-- What the scan does with a token that a pattern admits. -/
theorem Admits.steps (h : Admits t piece) (hpassed : t.isPassed piece = true) (hcomment : t ≠ .blockComment)
    (hclosed : ∀ raw, t ≠ .unclosedString raw) : Steps t piece := by
  cases h with
  | decimal hds hfs hes =>
    refine steps_of_unheeded (unheeded_append.mpr ⟨unheeded_append.mpr ⟨hds.unheeded, hfs.unheeded⟩, ?_⟩) fun _ => rfl
    rcases hes with rfl | hes
    · exact nofun
    · exact hes.unheeded
  | scientific hds hes => exact steps_of_unheeded (unheeded_append.mpr ⟨hds.unheeded, hes.unheeded⟩) fun _ => rfl
  | int hds => exact steps_of_unheeded hds.unheeded fun _ => rfl
  | string hbody =>
    refine fun opened column rest => ⟨opened, ?_, rfl⟩
    simp only [List.append_assoc, List.cons_append, List.nil_append, List.length_append, List.length_cons,
      List.length_nil]
    rw [openParens, openParens_body hbody, openParens, if_neg (by decide), if_pos rfl]
    congr 1
    omega
  | unclosedString hbody => exact absurd rfl (hclosed _)
  | char => exact steps_of_unheeded (of_decide_eq_true hpassed) fun _ => rfl
  | escapedChar => exact steps_of_unheeded (of_decide_eq_true hpassed) fun _ => rfl
  | typeVar hstart hcs =>
    refine steps_of_unheeded (unheeded_cons.mpr ⟨by decide, unheeded_cons.mpr ⟨?_, ?_⟩⟩) fun _ => rfl
    · exact isHeeded_of_continuesName (continues_of_starts hstart)
    · exact unheeded_name fun c hc => continuesName_of_continuesTypeVar (hcs c hc)
  | ident hstart hcs =>
    refine steps_of_unheeded (unheeded_cons.mpr ⟨?_, unheeded_name hcs⟩) fun _ => rfl
    exact isHeeded_of_continuesName (continues_of_starts hstart)
  | directive _ hcs =>
    refine steps_of_unheeded (unheeded_cons.mpr ⟨by decide, ?_⟩) fun _ => rfl
    exact unheeded_name fun c hc => continuesName_of_isLetter (hcs c hc)
  | keyword k =>
    obtain ⟨c, cs, hspelled, hstart, hcs⟩ := keyword_spelled k
    rw [hspelled]
    refine steps_of_unheeded (unheeded_cons.mpr ⟨?_, unheeded_name hcs⟩) fun _ => rfl
    exact isHeeded_of_continuesName (continues_of_starts hstart)
  | operator o => cases o <;> exact steps_of_unheeded (by decide) fun _ => rfl
  | punct p => exact punct_steps p
  | lineComment => exact steps_of_unheeded (of_decide_eq_true hpassed) fun _ => rfl
  | blockComment => exact absurd rfl hcomment

/-- A string that is not closed is the last token that counts. -/
theorem openParens_unclosedString (hline : '\n' ∉ cs) (h : (stringLength cs).2 = false)
    (opened : List OpenParen) (column : Nat) :
    openParens opened .code column ('"' :: cs) = opened ∧
      ∀ ns, ((lexemes (cs.drop (stringLength cs).1)).map (·.1)).foldl collect ns = ns := by
  obtain ⟨hopened, hrest⟩ := openParens_unclosed hline h opened (column + 1)
  refine ⟨hopened, fun ns => ?_⟩
  rcases hrest with hrest | hrest
  · rw [hrest, lexemes]
    rfl
  · rw [hrest, lexemes_token (by decide), List.drop_nil, lexemes]
    rfl

theorem comment_steps
    (hpassed : (lexeme '(' ('*' :: cs)).1.isPassed
      (('(' :: '*' :: cs).take (lexeme '(' ('*' :: cs)).2) = true) :
    Steps (lexeme '(' ('*' :: cs)).1 (('(' :: '*' :: cs).take (lexeme '(' ('*' :: cs)).2) := by
  rw [lexeme_comment] at hpassed ⊢
  cases hcomment : commentLength? 0 cs with
  | none =>
    rw [hcomment, Option.getD_none, Nat.add_comm, List.take_succ_cons] at hpassed
    have hunheeded : Unheeded ('(' :: ('*' :: cs).take (cs.length + 1)) := of_decide_eq_true hpassed
    exact absurd (hunheeded '(' List.mem_cons_self) (by decide)
  | some n =>
    have hlength : (cs.take n).length = n := List.length_take_of_le (commentLength?_le hcomment)
    rw [hcomment, Option.getD_some, Nat.add_comm, List.take_succ_cons, List.take_succ_cons] at hpassed
    rw [Option.getD_some, Nat.add_comm, List.take_succ_cons, List.take_succ_cons]
    refine fun opened column rest => ⟨opened, ?_, rfl⟩
    have hone : [(⟨column, 0⟩ : OpenParen)].length = 0 + 1 := rfl
    have hscan := openParens_comment (commentLength?_again hcomment rest) (by rwa [List.take_left' hlength]) hone
      opened (column + 2)
    rw [List.drop_left' hlength] at hscan
    have hmarks : openParens opened .code column ('(' :: '*' :: (cs.take n ++ rest)) =
        openParens (⟨column, 0⟩ :: opened) .code (column + 2) (cs.take n ++ rest) := rfl
    rw [List.cons_append, List.cons_append, hmarks, List.length_cons, List.length_cons, hlength,
      Nat.add_comm (n + 1), Nat.add_comm n, ← Nat.add_assoc, ← Nat.add_assoc]
    exact hscan

theorem lexeme_unclosed {raw : String} (h : (lexeme c cs).1 = .unclosedString raw) :
    c = '"' ∧ (stringLength cs).2 = false := by
  obtain ⟨-, inside, hpiece⟩ := (lexeme_admits_literal (.inr (.inl h))).string_eq (.inr h)
  have hcut := lexeme_cut c cs
  rw [hpiece] at hcut
  obtain rfl := (List.cons.inj hcut).1
  rw [lexeme_string] at h
  refine ⟨rfl, Bool.eq_false_iff.mpr fun hclosed => ?_⟩
  rw [hclosed] at h
  cases h

/-- What the scan does with the first token of a text. -/
theorem lexeme_steps (hpassed : (lexeme c cs).1.isPassed ((c :: cs).take (lexeme c cs).2) = true)
    (hclosed : ∀ raw, (lexeme c cs).1 ≠ .unclosedString raw) :
    Steps (lexeme c cs).1 ((c :: cs).take (lexeme c cs).2) := by
  by_cases hcomment : ∃ ds, c = '(' ∧ cs = '*' :: ds
  · obtain ⟨ds, rfl, rfl⟩ := hcomment
    exact comment_steps hpassed
  have hplain : ∀ ds, c :: cs ≠ '(' :: '*' :: ds := fun ds h =>
    hcomment ⟨ds, (List.cons.inj h).1, (List.cons.inj h).2⟩
  rcases lexeme_admits hplain with herror | hadmits
  · rw [herror] at hpassed ⊢
    exact steps_of_unheeded (of_decide_eq_true hpassed) fun _ => rfl
  · refine hadmits.steps hpassed (fun hblock => ?_) hclosed
    have hcut := lexeme_cut c cs
    rw [hblock] at hadmits
    generalize (c :: cs).take (lexeme c cs).2 = piece at hadmits hcut
    cases hadmits
    exact hplain _ hcut.symm

/-- The scan of a line as a fold of its tokens. -/
theorem openParens_lexemes (hline : '\n' ∉ cs) (hpassed : ∀ t ∈ lexemes cs, t.1.isPassed t.2 = true)
    (opened : List OpenParen) (column : Nat) : (openParens opened .code column cs).map (·.commas) =
      ((lexemes cs).map (·.1)).foldl collect (opened.map (·.commas)) := by
  fun_induction lexemes cs generalizing opened column with
  | case1 => rfl
  | case2 c cs hblank ih =>
    rw [openParens_cons (isHeeded_of_isBlank hblank)]
    exact ih (fun hmem => hline (List.mem_cons_of_mem c hmem)) hpassed opened (column + 1)
  | case3 c cs hblank ih =>
    rw [List.map_cons, List.foldl_cons]
    by_cases hunclosed : ∃ raw, (lexeme c cs).1 = .unclosedString raw
    · obtain ⟨raw, hraw⟩ := hunclosed
      obtain ⟨rfl, hopen⟩ := lexeme_unclosed hraw
      obtain ⟨hopened, hrest⟩ := openParens_unclosedString
        (fun hmem => hline (List.mem_cons_of_mem _ hmem)) hopen opened column
      have hcollect (ns : List Nat) : collect ns (lexeme '"' cs).1 = ns := hraw ▸ rfl
      have hlength : (lexeme '"' cs).2 - 1 = (stringLength cs).1 := Nat.add_sub_cancel_left 1 _
      rw [hopened, hcollect, hlength, hrest]
    · have hclosed : ∀ raw, (lexeme c cs).1 ≠ .unclosedString raw := fun raw h => hunclosed ⟨raw, h⟩
      obtain ⟨opened', hscan, hcollect⟩ :=
        lexeme_steps (hpassed _ List.mem_cons_self) hclosed opened column (cs.drop ((lexeme c cs).2 - 1))
      have hnext := ih (fun hmem => hline (List.mem_cons_of_mem c (List.mem_of_mem_drop hmem)))
        (fun t ht => hpassed t (List.mem_cons_of_mem _ ht)) opened' (column + ((c :: cs).take (lexeme c cs).2).length)
      rw [lexeme_cut] at hscan
      rw [hscan, hnext, hcollect]

end Token

/-- The call around a column is read off the tokens in front of it, if no literal and no comment there holds a
quote, a parenthesis or a comma. Its argument is theirs if no comma stands in brackets of another kind. -/
theorem callAt?_tokens {line : Text} {column : Nat} (hline : '\n' ∉ line.take column)
    (hpassed : ∀ t ∈ Token.sliced (line.take column), t.1.isPassed t.2 = true) :
    let ts := (Token.tokens (line.take column)).map (·.1)
    (callAt? line column = none ↔ Bracket.round.unclosed ts = 0) ∧
      ((callAt? line column).map (·.2) = Token.argument? ts ↔
        ∀ behind ∈ Token.behindParen? ts, ∀ i < behind.length,
          behind[i]? = some (.punct .comma) → (∃ b ∈ [Bracket.square, .curly], b.Encloses behind i) →
            Bracket.round.Encloses behind i) := by
  intro ts
  have htokens : (Token.lexemes (line.take column)).map (·.1) = ts := by
    rw [← Token.sliced_eq, Token.sliced, List.map_map]
    rfl
  have hscan := Token.openParens_lexemes hline (Token.sliced_eq _ ▸ hpassed) [] 0
  rw [htokens] at hscan
  have hhead : ((openParens [] .code 0 (line.take column)).map (·.commas)).head? =
      (Token.behindParen? ts).map (Token.commasOutside [.round]) := by
    rw [hscan]
    exact Token.head?_collect ts
  have hcall : (callAt? line column).map (·.2) =
      ((openParens [] .code 0 (line.take column)).map (·.commas)).head? := by
    rw [callAt?]
    cases openParens [] .code 0 (line.take column) <;> rfl
  rw [← Option.map_eq_none_iff (f := (·.2)), hcall, hhead, Option.map_eq_none_iff,
    Token.behindParen?_eq_none_iff]
  refine ⟨Iff.rfl, ?_⟩
  rw [Token.argument?]
  cases Token.behindParen? ts with
  | none => exact iff_of_true rfl nofun
  | some behind =>
    have hmore : Token.commasOutside [.round] behind = Token.commasOutside Bracket.all behind ↔ _ :=
      Token.commasOutside_append_iff [.round] [.square, .curly] behind
    simp only [List.mem_singleton, exists_eq_left] at hmore
    simpa only [Option.map_some, Option.some.injEq, Option.mem_def, forall_eq'] using hmore

/-- A call with a string, a character, a comment and brackets in its arguments. -/
theorem nestedCall_argument :
    (callAt? "Max(f (1, [2, 3]), \"a,(\\\"b\", 'x', (* c, (* d *) *) y, ".toList 54).map (·.2) = some 4 := by
  have hargument : Token.argument? ((Token.tokens
      ("Max(f (1, [2, 3]), \"a,(\\\"b\", 'x', (* c, (* d *) *) y, ".toList.take 54)).map (·.1)) = some 4 := by
    decide +kernel
  rw [← hargument]
  exact (callAt?_tokens (by decide +kernel) (by decide +kernel)).2.mpr (by decide +kernel)

/-- A quote between apostrophes opens a string for the scan, which then misses the comma behind it. -/
theorem quotedQuote_hides_comma :
    let line := "f ('\"', ".toList
    callAt? line 8 = some (["f"], 0) ∧ Token.argument? ((Token.tokens (line.take 8)).map (·.1)) = some 1 := by
  decide +kernel

end ScriptAnalyzer

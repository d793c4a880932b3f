import ScriptAnalyzer.Proofs.Token.Delimited
import ScriptAnalyzer.Proofs.Token.Lines

/-!
The patterns of the tokens. The lexer takes the longest text at its place that a pattern admits, and a keyword
before a name of the same text. A block comment is found by its opening mark; where it ends is beyond patterns.
-/

namespace ScriptAnalyzer
namespace Token

/-- The inside of a string. -/
inductive Body : Text → Prop
  | nil : Body []
  | plain {c : Char} {cs : Text} : c ≠ '"' → c ≠ '\\' → c ≠ '\n' → Body cs → Body (c :: cs)
  | escape {c : Char} {cs : Text} : c ≠ '\n' → Body cs → Body ('\\' :: c :: cs)

/-- The texts that the pattern of a token admits. -/
inductive Admits : Token → Text → Prop
  | decimal {ds fs es : Text} : Digits ds → Fraction fs → es = [] ∨ Exponent es →
      Admits (float (String.ofList (ds ++ fs ++ es))) (ds ++ fs ++ es)
  | scientific {ds es : Text} : Digits ds → Exponent es → Admits (float (String.ofList (ds ++ es))) (ds ++ es)
  | int {ds : Text} : Digits ds → Admits (int (String.ofList ds)) ds
  | string {body : Text} : Body body → Admits (string (String.ofList ('"' :: body ++ ['"']))) ('"' :: body ++ ['"'])
  | unclosedString {body : Text} : Body body → Admits (unclosedString (String.ofList ('"' :: body))) ('"' :: body)
  | char {c : Char} : c ≠ '\\' → c ≠ '\'' → c ≠ '\n' → Admits (char (String.ofList ['\'', c, '\''])) ['\'', c, '\'']
  | escapedChar {c : Char} : c ≠ '\n' → Admits (char (String.ofList ['\'', '\\', c, '\''])) ['\'', '\\', c, '\'']
  | typeVar {c : Char} {cs : Text} : startsName c = true → (∀ d ∈ cs, continuesTypeVar d = true) →
      Admits (typeVar (String.ofList ('\'' :: c :: cs))) ('\'' :: c :: cs)
  | ident {c : Char} {cs : Text} : startsName c = true → (∀ d ∈ cs, continuesName d = true) →
      Admits (ident (String.ofList (c :: cs))) (c :: cs)
  | directive {cs : Text} : cs ≠ [] → (∀ d ∈ cs, isLetter d = true) →
      Admits (directive (String.ofList ('#' :: cs))) ('#' :: cs)
  | keyword (k : Keyword) : Admits (keyword k) k.text.toList
  | operator (o : Operator) : Admits (operator o) o.text.toList
  | punct (p : Punct) : Admits (punct p) p.text.toList
  | lineComment {body : Text} : (∀ d ∈ body, d ≠ '\n') →
      Admits (lineComment (String.ofList ('/' :: '/' :: body))) ('/' :: '/' :: body)
  | blockComment : Admits blockComment ['(', '*']

variable {t : Token} {c : Char} {cs ds fs es body piece rest text : Text}

/-- A match is taken before a shorter one, and a keyword before a name. -/
def Wins (r r' : Token × Nat) : Prop :=
  r'.2 < r.2 ∨ r'.2 = r.2 ∧ (r'.1 = r.1 ∨ ∃ k name, r.1 = keyword k ∧ r'.1 = ident name)

theorem wins_of_length {r r' : Token × Nat} (hle : r'.2 ≤ r.2) (heq : r'.2 = r.2 → r'.1 = r.1) : Wins r r' := by
  rcases Nat.lt_or_eq_of_le hle with h | h
  · exact .inl h
  · exact .inr ⟨h, .inl (heq h)⟩

/-! Numbers -/

/-- Of a text that begins with these parts of a number at least these are read: `whole` digits and `more`. -/
theorem number_parts (hds : Digits ds) (hfs : fs = [] ∨ Fraction fs) (hes : es = [] ∨ Exponent es)
    (htext : text = ds ++ (fs ++ (es ++ rest))) :
    ∃ whole more, number text =
        (if more = 0 then int (String.ofList (text.take (whole + more)))
          else float (String.ofList (text.take (whole + more))), whole + more) ∧
      ds.length + fs.length + es.length ≤ whole + more ∧ ds.length ≤ whole ∧
      (whole = ds.length ∨ fs = [] ∧ es = []) := by
  have hwhole := hds.takeWhile_append (fs ++ (es ++ rest))
  rw [← htext] at hwhole
  refine ⟨_, _, by rw [number, ← Nat.add_assoc], ?_⟩
  by_cases hnone : fs = [] ∧ es = []
  · obtain ⟨rfl, rfl⟩ := hnone
    rw [List.length_nil]
    exact ⟨by omega, by omega, .inr ⟨rfl, rfl⟩⟩
  -- what follows the digits is no digit
  have hclear : Clear isDigit (fs ++ (es ++ rest)) := by
    rcases hfs with rfl | hfs
    · exact ((hes.resolve_left fun h => hnone ⟨rfl, h⟩).clear rest).1
    · exact hfs.clear _
  rw [takeWhile_clear hclear, List.length_nil, Nat.add_zero] at hwhole
  have hfraction : text.drop ds.length = fs ++ (es ++ rest) := by rw [htext, List.drop_left]
  rw [hwhole, hfraction]
  refine ⟨?_, Nat.le_refl _, .inl rfl⟩
  rcases hes with rfl | hes
  · have hfs := hfs.resolve_left fun h => hnone ⟨h, rfl⟩
    rw [hfs.length_append, List.length_nil]
    omega
  · have hlength : fractionLength (fs ++ (es ++ rest)) = fs.length := by
      rcases hfs with rfl | hfs
      · exact fractionLength_clear (hes.clear rest).2
      · rw [hfs.length_append, takeWhile_clear (hes.clear rest).1, List.length_nil, Nat.add_zero]
    have hexponent : text.drop (ds.length + fs.length) = es ++ rest := by
      rw [htext, ← List.append_assoc, List.drop_left' List.length_append]
    rw [hlength, hexponent, hes.length_append]
    omega

theorem number_wins (hds : Digits ds) (hfs : fs = [] ∨ Fraction fs) (hes : es = [] ∨ Exponent es) (rest : Text) :
    Wins (number (ds ++ (fs ++ (es ++ rest)))) (numeral ds fs es, (ds ++ fs ++ es).length) := by
  obtain ⟨whole, more, hnumber, hle, hlow, hparts⟩ := number_parts hds hfs hes rfl
  have hsize : (ds ++ fs ++ es).length = ds.length + fs.length + es.length := by simp only [List.length_append]
  rw [hnumber]
  refine wins_of_length (hsize ▸ hle) fun heq => ?_
  dsimp only at heq ⊢
  have hmore : more = fs.length + es.length := by
    rcases hparts with hwhole | ⟨rfl, rfl⟩
    · omega
    · simp only [List.length_nil] at hsize ⊢
      omega
  rw [← heq, ← List.append_assoc, ← List.append_assoc, List.take_left, hmore, numeral]

theorem numeral_int (ds : Text) : numeral ds [] [] = int (String.ofList ds) := by
  rw [numeral, List.append_nil, List.append_nil]
  rfl

theorem numeral_decimal (hfs : Fraction fs) : numeral ds fs es = float (String.ofList (ds ++ fs ++ es)) := by
  obtain ⟨-⟩ := hfs
  exact if_neg (by simp)

theorem numeral_scientific (hes : Exponent es) : numeral ds [] es = float (String.ofList (ds ++ es)) := by
  rw [numeral, List.append_nil]
  obtain ⟨-, -⟩ | ⟨-, -, -⟩ := hes
  all_goals exact if_neg (by simp)

/-! Strings -/

theorem Body.stringLength_append (h : Body body) (rest : Text) :
    stringLength (body ++ rest) = (body.length + (stringLength rest).1, (stringLength rest).2) := by
  induction h with
  | nil => simp
  | plain hquote hescape hline _ ih =>
    rw [List.cons_append, stringLength_cons hquote hline hescape, ih, List.length_cons, Nat.add_right_comm]
  | escape hline _ ih =>
    rw [List.cons_append, List.cons_append, stringLength_escape hline, ih, List.length_cons, List.length_cons,
      Nat.add_right_comm]

theorem not_closed_of_length {cs : Text} (h : (stringLength cs).1 = 0) : (stringLength cs).2 = false := by
  fun_cases stringLength cs <;> simp_all [stringLength]

theorem exists_body (cs : Text) : ∃ body, Body body ∧
    ((stringLength cs).2 = true ∧ cs.take (stringLength cs).1 = body ++ ['"'] ∨
      (stringLength cs).2 = false ∧ cs.take (stringLength cs).1 = body) := by
  fun_induction stringLength cs with
  | case1 => exact ⟨[], .nil, .inr ⟨rfl, rfl⟩⟩
  | case2 => exact ⟨[], .nil, .inl ⟨rfl, rfl⟩⟩
  | case3 => exact ⟨[], .nil, .inr ⟨rfl, rfl⟩⟩
  | case4 => exact ⟨[], .nil, .inr ⟨rfl, rfl⟩⟩
  | case5 => exact ⟨[], .nil, .inr ⟨rfl, rfl⟩⟩
  | case6 c cs hc r ih =>
    obtain ⟨body, hbody, h⟩ := ih
    refine ⟨'\\' :: c :: body, .escape hc hbody, ?_⟩
    simpa [r] using h
  | case7 c cs hquote hend hlast hline hescaped r ih =>
    obtain ⟨body, hbody, h⟩ := ih
    refine ⟨c :: body, .plain hquote (not_escape hlast hescaped) hend hbody, ?_⟩
    simpa [r] using h

theorem string_wins (h : Body body) (rest : Text) : Wins (lexeme '"' (body ++ '"' :: rest))
    (string (String.ofList ('"' :: body ++ ['"'])), ('"' :: body ++ ['"']).length) := by
  have hlength : stringLength (body ++ '"' :: rest) = (body.length + 1, true) := h.stringLength_append _
  have htake : (body ++ '"' :: rest).take (body.length + 1) = body ++ ['"'] := by
    rw [List.append_cons, List.take_left' (by simp)]
  rw [lexeme_string, hlength, htake]
  refine wins_of_length (Nat.le_of_eq ?_) fun _ => rfl
  simp only [List.length_append, List.length_cons, List.length_nil]
  omega

theorem unclosedString_wins (h : Body body) (rest : Text) : Wins (lexeme '"' (body ++ rest))
    (unclosedString (String.ofList ('"' :: body)), ('"' :: body).length) := by
  have hlength := h.stringLength_append rest
  rw [lexeme_string, hlength]
  refine wins_of_length ?_ fun heq => ?_
  · simp only [List.length_cons]
    omega
  · dsimp only [List.length_cons] at heq ⊢
    have hnone : (stringLength rest).1 = 0 := by omega
    rw [hnone, not_closed_of_length hnone, Nat.add_zero, List.take_left]
    rfl

/-! Names -/

theorem length_le_takeWhile {p : Char → Bool} (hcs : ∀ c ∈ cs, p c = true) (rest : Text) :
    cs.length ≤ ((cs ++ rest).takeWhile p).length := by
  rw [List.takeWhile_append_of_pos hcs, List.length_append]
  exact Nat.le_add_right _ _

theorem takeWhile_of_length {p : Char → Bool} (hcs : ∀ c ∈ cs, p c = true)
    (hlength : cs.length = ((cs ++ rest).takeWhile p).length) : (cs ++ rest).takeWhile p = cs := by
  rw [List.takeWhile_append_of_pos hcs] at hlength ⊢
  exact ((List.prefix_append _ _).eq_of_length hlength).symm

theorem not_digit_of_name (h : startsName c = true) : ¬isDigit c = true := by
  intro hdigit
  simp only [isDigit, startsName, isLetter, Bool.and_eq_true, Bool.or_eq_true, decide_eq_true_eq, beq_iff_eq,
    Char.le_def, UInt32.le_iff_toNat_le] at hdigit h
  rcases h with h | rfl
  · simp only [Char.reduceVal, UInt32.reduceToNat] at hdigit h
    omega
  · exact absurd hdigit (by decide)

theorem continues_of_starts (h : startsName c = true) : continuesName c = true := by
  simp [continuesName, continuesTypeVar, h]

theorem ident_wins (hname : ∀ d ∈ cs, continuesName d = true) (rest : Text) :
    Wins (name (cs ++ rest)) (ident (String.ofList cs), cs.length) := by
  rcases Nat.lt_or_eq_of_le (length_le_takeWhile hname rest) with h | h
  · exact .inl h
  · refine .inr ⟨h, ?_⟩
    simp only [name, takeWhile_of_length hname h]
    cases Keyword.ofText? (String.ofList cs) with
    | none => exact .inl rfl
    | some k => exact .inr ⟨k, _, rfl, rfl⟩

theorem keyword_spelled (k : Keyword) : ∃ c cs, k.text.toList = c :: cs ∧ startsName c = true ∧
    ∀ d ∈ cs, continuesName d = true := by
  cases k
  all_goals exact ⟨_, _, rfl, rfl, List.all_eq_true.mp rfl⟩

theorem ofText?_text (k : Keyword) : Keyword.ofText? k.text = some k := by
  cases k <;> decide

theorem keyword_wins (k : Keyword) (rest : Text) :
    Wins (name (k.text.toList ++ rest)) (keyword k, k.text.toList.length) := by
  obtain ⟨c, cs, hk, hstart, hcs⟩ := keyword_spelled k
  have hname : ∀ d ∈ k.text.toList, continuesName d = true := by
    rw [hk]
    exact List.forall_mem_cons.mpr ⟨continues_of_starts hstart, hcs⟩
  refine wins_of_length (length_le_takeWhile hname rest) fun h => ?_
  simp only [name, takeWhile_of_length hname h, String.ofList_toList, ofText?_text]

/-! Character literals, type variables and directives -/

theorem typeVar_wins (hstart : startsName c = true) (hcs : ∀ d ∈ cs, continuesTypeVar d = true) (rest : Text) :
    Wins (quoted (c :: cs ++ rest))
      (typeVar (String.ofList ('\'' :: c :: cs)), ('\'' :: c :: cs).length) := by
  by_cases hquote : ∃ ds, cs ++ rest = '\'' :: ds
  · obtain ⟨ds, hds⟩ := hquote
    have hnone : cs = [] := by
      cases cs with
      | nil => rfl
      | cons d cs =>
        have hd := hcs d List.mem_cons_self
        rw [(List.cons.inj hds).1] at hd
        exact absurd hd (by decide)
    have hplain : c ≠ '\\' ∧ c ≠ '\'' ∧ c ≠ '\n' := by
      refine ⟨?_, ?_, ?_⟩
      all_goals
        rintro rfl
        exact absurd hstart (by decide)
    obtain ⟨hescape, hquote, hline⟩ := hplain
    rw [List.cons_append, hds, quoted_plain hescape hquote hline, hnone]
    exact .inl (Nat.lt_succ_self 2)
  · have hnext : ∀ ds, cs ++ rest ≠ '\'' :: ds := fun ds h => hquote ⟨ds, h⟩
    rw [List.cons_append, quoted_typeVar hstart hnext]
    refine wins_of_length ?_ fun heq => ?_
    · have hle := length_le_takeWhile hcs rest
      simp only [List.length_cons]
      omega
    · dsimp only [List.length_cons] at heq ⊢
      rw [takeWhile_of_length hcs (by omega)]

theorem directive_wins (hnonempty : cs ≠ []) (hcs : ∀ d ∈ cs, isLetter d = true) (rest : Text) :
    Wins (lexeme '#' (cs ++ rest)) (directive (String.ofList ('#' :: cs)), ('#' :: cs).length) := by
  have hle := length_le_takeWhile hcs rest
  have hpos := List.length_pos_iff.mpr hnonempty
  have hsome : ¬((cs ++ rest).takeWhile isLetter).isEmpty = true := by
    rw [List.isEmpty_iff_length_eq_zero]
    omega
  rw [lexeme_directive, if_neg hsome]
  refine wins_of_length ?_ fun heq => ?_
  · simp only [List.length_cons]
    omega
  · dsimp only [List.length_cons] at heq ⊢
    rw [takeWhile_of_length hcs (by omega)]

/-! Symbols and comments -/

/-- A symbol of two characters, or of a single one. -/
def OfSymbol (t : Token) (piece : Text) : Prop :=
  (∃ c d, piece = [c, d] ∧ Mark c ∧ ∀ rest, symbol? (c :: d :: rest) = some (t, 2)) ∨
    ∃ c, piece = [c] ∧ Mark c ∧ symbol? [c] = some (t, 1)

theorem operator_symbol (o : Operator) : OfSymbol (operator o) o.text.toList := by
  cases o
  all_goals first
    | exact .inl ⟨_, _, rfl, ⟨by decide, by decide, by decide, by decide, by decide⟩, fun _ => rfl⟩
    | exact .inr ⟨_, rfl, ⟨by decide, by decide, by decide, by decide, by decide⟩, rfl⟩

theorem punct_symbol (p : Punct) : OfSymbol (punct p) p.text.toList := by
  cases p
  all_goals exact .inr ⟨_, rfl, ⟨by decide, by decide, by decide, by decide, by decide⟩, rfl⟩

theorem lineComment_wins (hbody : ∀ d ∈ body, d ≠ '\n') (rest : Text) :
    Wins (lexeme '/' ('/' :: body ++ rest))
      (lineComment (String.ofList ('/' :: '/' :: body)), ('/' :: '/' :: body).length) := by
  have hall : ∀ d ∈ body, decide (d ≠ '\n') = true := fun d hd => decide_eq_true (hbody d hd)
  have hle := length_le_takeWhile hall rest
  rw [List.cons_append, lexeme_lineComment]
  refine wins_of_length ?_ fun heq => ?_
  · simp only [List.length_cons]
    omega
  · dsimp only [List.length_cons] at heq ⊢
    rw [takeWhile_of_length hall (by omega)]

theorem symbol_wins (hsymbol : OfSymbol t piece) (htext : c :: cs = piece ++ rest) (hplain : NoComment c cs) :
    Wins (lexeme c cs) (t, piece.length) := by
  obtain ⟨d, e, rfl, hmark, hsymbol⟩ | ⟨d, rfl, hmark, hsymbol⟩ := hsymbol
  · obtain ⟨rfl, rfl⟩ : c = d ∧ cs = e :: rest := List.cons.inj htext
    rw [lexeme_symbol hmark hplain, hsymbol]
    exact .inr ⟨rfl, .inl rfl⟩
  · obtain ⟨rfl, rfl⟩ : c = d ∧ cs = rest := List.cons.inj htext
    rw [lexeme_symbol hmark hplain]
    rcases symbol?_cases c cs with ⟨d, ds, u, rfl, -, htwo⟩ | ⟨hone, -⟩
    · rw [htwo]
      exact .inl (Nat.lt_succ_self 1)
    · rw [hone, hsymbol]
      exact .inr ⟨rfl, .inl rfl⟩

/-- The characters that open a comment are symbols by themselves only. -/
theorem OfSymbol.length_eq_one (hsymbol : OfSymbol t piece) (htext : c :: cs = piece ++ rest)
    (hc : c = '/' ∨ c = '(') : piece.length = 1 := by
  obtain ⟨d, e, rfl, -, hsymbol⟩ | ⟨d, rfl, -, -⟩ := hsymbol
  · obtain ⟨rfl, -⟩ : c = d ∧ cs = e :: rest := List.cons.inj htext
    have htwo := hsymbol []
    rcases hc with rfl | rfl
    all_goals exact absurd (congrArg Prod.snd (Option.some.inj htwo)) (Nat.ne_of_lt (Nat.lt_succ_self 1))
  · rfl

theorem opened_wins (hsymbol : OfSymbol t piece) (htext : c :: cs = piece ++ rest)
    (hcomment : ∀ ds, c :: cs ≠ '(' :: '*' :: ds) : Wins (lexeme c cs) (t, piece.length) := by
  by_cases hline : ∃ ds, c = '/' ∧ cs = '/' :: ds
  · obtain ⟨ds, rfl, rfl⟩ := hline
    refine .inl ?_
    rw [hsymbol.length_eq_one htext (.inl rfl), lexeme_lineComment]
    exact Nat.lt_of_lt_of_le (Nat.lt_succ_self 1) (Nat.le_add_right 2 _)
  · refine symbol_wins hsymbol htext ⟨fun hc ds hcs => hline ⟨ds, hc, hcs⟩, fun hc ds hcs => ?_⟩
    exact hcomment ds (by rw [hc, hcs])

/-! All patterns -/

theorem Digits.head (hds : Digits ds) (htext : c :: cs = ds ++ rest) : isDigit c = true := by
  cases ds with
  | nil => exact absurd rfl hds.length_ne
  | cons d ds =>
    rw [(List.cons.inj htext).1]
    exact hds.all d List.mem_cons_self

/-- Whatever a pattern admits at a place, the lexer takes at least as much. -/
theorem Admits.wins (h : Admits t piece) (htext : c :: cs = piece ++ rest) (hcomment : ∀ ds, c :: cs ≠ '(' :: '*' :: ds) :
    Wins (lexeme c cs) (t, piece.length) := by
  cases h with
  | @decimal ds fs es hds hfs hes =>
    have hwins := number_wins hds (.inr hfs) hes rest
    rw [List.append_assoc, List.append_assoc] at htext
    rwa [lexeme_number (hds.head htext), htext, ← numeral_decimal hfs]
  | @scientific ds es hds hes =>
    have hwins := number_wins hds (.inl rfl) (.inr hes) rest
    rw [numeral_scientific hes, List.append_nil, List.nil_append] at hwins
    rw [List.append_assoc] at htext
    rwa [lexeme_number (hds.head htext), htext]
  | int hds =>
    have hwins := number_wins hds (.inl rfl) (.inl rfl) rest
    rw [numeral_int, List.append_nil, List.append_nil, List.nil_append, List.nil_append] at hwins
    rwa [lexeme_number (hds.head htext), htext]
  | @string body hbody =>
    obtain ⟨rfl, rfl⟩ : c = '"' ∧ cs = body ++ ['"'] ++ rest := List.cons.inj htext
    rw [List.append_assoc]
    exact string_wins hbody rest
  | @unclosedString body hbody =>
    obtain ⟨rfl, rfl⟩ : c = '"' ∧ cs = body ++ rest := List.cons.inj htext
    exact unclosedString_wins hbody rest
  | @char d hescape hquote hline =>
    obtain ⟨rfl, rfl⟩ : c = '\'' ∧ cs = d :: '\'' :: rest := List.cons.inj htext
    rw [lexeme_quoted, quoted_plain hescape hquote hline]
    exact .inr ⟨rfl, .inl rfl⟩
  | @escapedChar d hline =>
    obtain ⟨rfl, rfl⟩ : c = '\'' ∧ cs = '\\' :: d :: '\'' :: rest := List.cons.inj htext
    rw [lexeme_quoted, quoted_escape hline]
    exact .inr ⟨rfl, .inl rfl⟩
  | @typeVar d ds hstart hds =>
    obtain ⟨rfl, rfl⟩ : c = '\'' ∧ cs = d :: ds ++ rest := List.cons.inj htext
    exact typeVar_wins hstart hds rest
  | @ident d ds hstart hds =>
    obtain ⟨rfl, rfl⟩ : c = d ∧ cs = ds ++ rest := List.cons.inj htext
    rw [lexeme_name (not_digit_of_name hstart) hstart]
    exact ident_wins (List.forall_mem_cons.mpr ⟨continues_of_starts hstart, hds⟩) rest
  | @directive ds hnonempty hds =>
    obtain ⟨rfl, rfl⟩ : c = '#' ∧ cs = ds ++ rest := List.cons.inj htext
    exact directive_wins hnonempty hds rest
  | keyword k =>
    have hwins := keyword_wins k rest
    obtain ⟨d, ds, hk, hstart, -⟩ := keyword_spelled k
    obtain ⟨rfl, -⟩ : c = d ∧ cs = ds ++ rest := List.cons.inj (by rw [htext, hk, List.cons_append])
    rwa [lexeme_name (not_digit_of_name hstart) hstart, htext]
  | operator o => exact opened_wins (operator_symbol o) htext hcomment
  | punct p => exact opened_wins (punct_symbol p) htext hcomment
  | @lineComment body hbody =>
    obtain ⟨rfl, rfl⟩ : c = '/' ∧ cs = '/' :: body ++ rest := List.cons.inj htext
    exact lineComment_wins hbody rest
  | blockComment => exact absurd htext (hcomment _)

/-- Where a block comment opens, nothing longer than its mark is admitted. -/
theorem Admits.comment_wins (h : Admits t piece) (htext : '(' :: '*' :: cs = piece ++ rest) :
    Wins (Token.blockComment, 2) (t, piece.length) := by
  cases h with
  | decimal hds =>
    rw [List.append_assoc, List.append_assoc] at htext
    exact absurd (hds.head htext) (by decide)
  | scientific hds =>
    rw [List.append_assoc] at htext
    exact absurd (hds.head htext) (by decide)
  | int hds => exact absurd (hds.head htext) (by decide)
  | string | unclosedString | char | escapedChar | typeVar | directive | lineComment =>
    exact absurd (List.cons.inj htext).1 (by decide)
  | ident hstart =>
    rw [← (List.cons.inj htext).1] at hstart
    exact absurd hstart (by decide)
  | keyword k =>
    obtain ⟨d, ds, hk, hstart, -⟩ := keyword_spelled k
    rw [hk] at htext
    rw [← (List.cons.inj htext).1] at hstart
    exact absurd hstart (by decide)
  | operator o => exact .inl ((operator_symbol o).length_eq_one htext (.inr rfl) ▸ Nat.lt_succ_self 1)
  | punct p => exact .inl ((punct_symbol p).length_eq_one htext (.inr rfl) ▸ Nat.lt_succ_self 1)
  | blockComment => exact .inr ⟨rfl, .inl rfl⟩

/-! What is read -/

theorem numeral_admits (hds : Digits ds) (hfs : fs = [] ∨ Fraction fs) (hes : es = [] ∨ Exponent es) :
    Admits (numeral ds fs es) (ds ++ fs ++ es) := by
  rcases hfs with rfl | hfs
  · rcases hes with rfl | hes
    · rw [numeral_int, List.append_nil, List.append_nil]
      exact .int hds
    · rw [numeral_scientific hes, List.append_nil]
      exact .scientific hds hes
  · rw [numeral_decimal hfs]
    exact .decimal hds hfs hes

theorem number_admits (h : isDigit c = true) (cs : Text) :
    Admits (number (c :: cs)).1 ((c :: cs).take (number (c :: cs)).2) := by
  obtain ⟨fs, es, hfs, hes, hnumber, hprefix⟩ := exists_number (c :: cs)
  rw [hnumber, ← List.prefix_iff_eq_take.mp hprefix]
  exact numeral_admits (digits_takeWhile (Nat.ne_of_gt (takeWhile_length_pos h cs))) hfs hes

theorem name_admits (h : startsName c = true) (cs : Text) :
    Admits (name (c :: cs)).1 ((c :: cs).take (name (c :: cs)).2) := by
  simp only [name, take_takeWhile_length]
  split
  case h_1 k hk =>
    have hspelled := List.find?_some hk
    have htext := eq_of_beq hspelled
    rw [← String.toList_ofList (l := (c :: cs).takeWhile continuesName), ← htext]
    exact .keyword k
  case h_2 =>
    rw [List.takeWhile_cons_of_pos (continues_of_starts h)]
    exact .ident h fun d hd => List.all_eq_true.mp List.all_takeWhile d hd

theorem string_admits (cs : Text) : Admits (lexeme '"' cs).1 (('"' :: cs).take (lexeme '"' cs).2) := by
  obtain ⟨body, hbody, ⟨hclosed, htake⟩ | ⟨hopen, htake⟩⟩ := exists_body cs
  · rw [lexeme_string, hclosed, Nat.add_comm, List.take_succ_cons, htake]
    exact .string hbody
  · rw [lexeme_string, hopen, Nat.add_comm, List.take_succ_cons, htake]
    exact .unclosedString hbody

theorem quoted_admits (cs : Text) : quoted cs = (error, 1) ∨
    Admits (quoted cs).1 (('\'' :: cs).take (quoted cs).2) := by
  rcases quoted_cases cs with h | ⟨c, ds, rfl, hc⟩ | ⟨c, ds, rfl, hescape, hquote, hline⟩ | ⟨c, ds, rfl, hname, hnext⟩
  · exact .inl h
  · rw [quoted_escape hc]
    exact .inr (.escapedChar hc)
  · rw [quoted_plain hescape hquote hline]
    exact .inr (.char hescape hquote hline)
  · rw [quoted_typeVar hname hnext, Nat.add_comm, List.take_succ_cons, List.take_succ_cons, take_takeWhile_length]
    exact .inr (.typeVar hname fun d hd => List.all_eq_true.mp List.all_takeWhile d hd)

theorem directive_admits (cs : Text) : lexeme '#' cs = (error, 1) ∨
    Admits (lexeme '#' cs).1 (('#' :: cs).take (lexeme '#' cs).2) := by
  rw [lexeme_directive]
  split
  case isTrue => exact .inl rfl
  case isFalse hsome =>
    rw [Nat.add_comm, List.take_succ_cons, take_takeWhile_length]
    refine .inr (.directive (fun hnone => hsome ?_) fun d hd => List.all_eq_true.mp List.all_takeWhile d hd)
    rw [hnone]
    rfl

theorem lineComment_admits (cs : Text) :
    Admits (lexeme '/' ('/' :: cs)).1 (('/' :: '/' :: cs).take (lexeme '/' ('/' :: cs)).2) := by
  rw [lexeme_lineComment, Nat.add_comm, List.take_succ_cons, List.take_succ_cons, take_takeWhile_length]
  exact .lineComment fun d hd => of_decide_eq_true (List.all_eq_true.mp List.all_takeWhile d hd)

theorem symbol?_admits (text : Text) : symbol? text = none ∨
    ∃ t n, symbol? text = some (t, n) ∧ Admits t (text.take n) := by
  fun_cases symbol? text
  case case28 => exact .inl rfl
  all_goals first
    | exact .inr ⟨_, _, rfl, .operator _⟩
    | exact .inr ⟨_, _, rfl, .punct _⟩

theorem lexeme_admits (hcomment : ∀ ds, c :: cs ≠ '(' :: '*' :: ds) : lexeme c cs = (error, 1) ∨
    Admits (lexeme c cs).1 ((c :: cs).take (lexeme c cs).2) := by
  by_cases hdigit : isDigit c = true
  · rw [lexeme_number hdigit]
    exact .inr (number_admits hdigit cs)
  by_cases hname : startsName c = true
  · rw [lexeme_name hdigit hname]
    exact .inr (name_admits hname cs)
  by_cases hstring : c = '"'
  · subst hstring
    exact .inr (string_admits cs)
  by_cases hquote : c = '\''
  · subst hquote
    exact quoted_admits cs
  by_cases hhash : c = '#'
  · subst hhash
    exact directive_admits cs
  by_cases hline : ∃ ds, c = '/' ∧ cs = '/' :: ds
  · obtain ⟨ds, rfl, rfl⟩ := hline
    exact .inr (lineComment_admits ds)
  have hplain : NoComment c cs :=
    ⟨fun hc ds hcs => hline ⟨ds, hc, hcs⟩, fun hc ds hcs => hcomment ds (by rw [hc, hcs])⟩
  rw [lexeme_symbol ⟨hdigit, hname, hstring, hquote, hhash⟩ hplain]
  rcases symbol?_admits (c :: cs) with h | ⟨t, n, h, hadmits⟩
  · exact .inl (by rw [h]; rfl)
  · rw [h]
    exact .inr hadmits

/-! The longest match -/

theorem Digits.ne_nil (hds : Digits ds) : ds ≠ [] := fun h => hds.length_ne (h ▸ rfl)

theorem Admits.ne_nil (h : Admits t piece) : piece ≠ [] := by
  cases h with
  | decimal hds => exact List.append_ne_nil_of_left_ne_nil (List.append_ne_nil_of_left_ne_nil hds.ne_nil _) _
  | scientific hds => exact List.append_ne_nil_of_left_ne_nil hds.ne_nil _
  | int hds => exact hds.ne_nil
  | keyword k => cases k <;> exact nofun
  | operator o => cases o <;> exact nofun
  | punct p => cases p <;> exact nofun
  | _ => exact nofun

/-! No pattern reaches over the end of a line -/

theorem oneLine_of_forall {p : Char → Bool} (hp : p '\n' = false) (h : ∀ c ∈ cs, p c = true) : OneLine cs :=
  fun hmem => Bool.eq_false_iff.mp hp (h _ hmem)

theorem Digits.oneLine {ds : Text} (h : Digits ds) : OneLine ds := oneLine_of_forall rfl h.all

theorem Fraction.oneLine {fs : Text} (h : Fraction fs) : OneLine fs := by
  obtain ⟨hds⟩ := h
  exact List.not_mem_cons_of_ne_of_not_mem (by decide) hds.oneLine

theorem Exponent.oneLine {es : Text} (h : Exponent es) : OneLine es := by
  have hmark : ∀ {c : Char}, (c == 'e' || c == 'E') = true → '\n' ≠ c := by
    rintro _ h rfl
    exact absurd h (by decide)
  have hsign : ∀ {c : Char}, (c == '+' || c == '-') = true → '\n' ≠ c := by
    rintro _ h rfl
    exact absurd h (by decide)
  obtain ⟨he, hds⟩ | ⟨he, hs, hds⟩ := h
  · exact List.not_mem_cons_of_ne_of_not_mem (hmark he) hds.oneLine
  · refine List.not_mem_cons_of_ne_of_not_mem (hmark he) ?_
    exact List.not_mem_cons_of_ne_of_not_mem (hsign hs) hds.oneLine

theorem Body.oneLine {body : Text} (h : Body body) : OneLine body := by
  induction h with
  | nil => exact List.not_mem_nil
  | plain _ _ hline _ ih => exact List.not_mem_cons_of_ne_of_not_mem (Ne.symm hline) ih
  | escape hline _ ih =>
    refine List.not_mem_cons_of_ne_of_not_mem (by decide) ?_
    exact List.not_mem_cons_of_ne_of_not_mem (Ne.symm hline) ih

theorem Admits.oneLine (h : Admits t piece) : OneLine piece := by
  cases h with
  | decimal hds hfs hes =>
    refine oneLine_append.mpr ⟨oneLine_append.mpr ⟨hds.oneLine, hfs.oneLine⟩, ?_⟩
    rcases hes with rfl | hes
    · exact List.not_mem_nil
    · exact hes.oneLine
  | scientific hds hes => exact oneLine_append.mpr ⟨hds.oneLine, hes.oneLine⟩
  | int hds => exact hds.oneLine
  | string hbody =>
    refine oneLine_append.mpr ⟨List.not_mem_cons_of_ne_of_not_mem (by decide) hbody.oneLine, ?_⟩
    exact mt List.mem_singleton.mp (by decide)
  | unclosedString hbody => exact List.not_mem_cons_of_ne_of_not_mem (by decide) hbody.oneLine
  | char _ _ hline => simpa [OneLine] using Ne.symm hline
  | escapedChar hline => simpa [OneLine] using Ne.symm hline
  | typeVar hstart hcs =>
    refine List.not_mem_cons_of_ne_of_not_mem (by decide) ?_
    refine List.not_mem_cons_of_ne_of_not_mem ?_ (oneLine_of_forall rfl hcs)
    rintro rfl
    exact absurd hstart (by decide)
  | ident hstart hcs =>
    refine List.not_mem_cons_of_ne_of_not_mem ?_ (oneLine_of_forall rfl hcs)
    rintro rfl
    exact absurd hstart (by decide)
  | directive _ hcs => exact List.not_mem_cons_of_ne_of_not_mem (by decide) (oneLine_of_forall rfl hcs)
  | keyword k => cases k <;> simp [OneLine, Keyword.text]
  | operator o => cases o <;> simp [OneLine, Operator.text]
  | punct p => cases p <;> simp [OneLine, Punct.text]
  | lineComment hbody =>
    refine List.not_mem_cons_of_ne_of_not_mem (by decide) ?_
    exact List.not_mem_cons_of_ne_of_not_mem (by decide) fun hmem => hbody _ hmem rfl
  | blockComment => simp [OneLine]

/-! The longest match -/

/-- The token `t` is the longest match at the start of the text, `n` characters long. -/
structure Longest (text : Text) (t : Token) (n : Nat) : Prop where
  admits : Admits t (text.take n)
  wins : ∀ {t' piece rest}, Admits t' piece → text = piece ++ rest → Wins (t, n) (t', piece.length)

/-- The lexer reads the longest match, or a single character as an error if no pattern admits anything. Where
the longest match is the mark of a block comment it reads the whole comment. -/
theorem lexeme_longest (c : Char) (cs : Text) :
    (lexeme c cs = (error, 1) ∧ ∀ t piece rest, Admits t piece → c :: cs ≠ piece ++ rest) ∨
      Longest (c :: cs) (lexeme c cs).1 (lexeme c cs).2 ∨
      ∃ ds, c :: cs = '(' :: '*' :: ds ∧ Longest (c :: cs) blockComment 2 := by
  by_cases hcomment : ∃ ds, c :: cs = '(' :: '*' :: ds
  · obtain ⟨ds, hds⟩ := hcomment
    rw [hds]
    exact .inr (.inr ⟨ds, rfl, .blockComment, fun h htext => h.comment_wins htext⟩)
  · have hplain : ∀ ds, c :: cs ≠ '(' :: '*' :: ds := fun ds h => hcomment ⟨ds, h⟩
    rcases lexeme_admits hplain with herror | hadmits
    · refine .inl ⟨herror, fun t piece rest h htext => ?_⟩
      have hwins := h.wins htext hplain
      rw [herror] at hwins
      have hpos := List.length_pos_iff.mpr h.ne_nil
      obtain hlt | ⟨-, heq | ⟨k, name, heq, -⟩⟩ := hwins
      · exact absurd hpos (Nat.not_lt.mpr (Nat.le_of_lt_succ hlt))
      · cases heq
        cases h
      · cases heq
    · exact .inr (.inl ⟨hadmits, fun h htext => h.wins htext hplain⟩)

end Token
end ScriptAnalyzer

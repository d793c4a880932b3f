import ScriptAnalyzer.Proofs.Token.LongestMatch
import ScriptAnalyzer.Token.Literal

/-!
Tokens written on one line. A blank stands in front of a token except where brackets and separators need none, and
never in front of the parenthesis of a call. The lexer finds in such a line the tokens that were written.
-/

namespace ScriptAnalyzer

namespace Literal

/-- A character as it is written inside a literal. -/
def escape : Char → Text
  | '"' => ['\\', '"']
  | '\'' => ['\\', '\'']
  | '\\' => ['\\', '\\']
  | '\n' => ['\\', 'n']
  | '\t' => ['\\', 't']
  | '\r' => ['\\', 'r']
  | '\x00' => ['\\', '0']
  | c => [c]

theorem escape_cases (c : Char) : (∃ d, escape c = ['\\', d] ∧ escaped d = c ∧ d ≠ '\n') ∨
    (escape c = [c] ∧ c ≠ '"' ∧ c ≠ '\'' ∧ c ≠ '\\' ∧ c ≠ '\n') := by
  fun_cases escape c
  case case8 hstring hquote hescape hline _ _ _ => exact .inr ⟨rfl, hstring, hquote, hescape, hline⟩
  all_goals exact .inl ⟨_, rfl, rfl, by decide⟩

theorem decode_escape (c : Char) (cs : Text) : decode (escape c ++ cs) = c :: decode cs := by
  rcases escape_cases c with ⟨d, hescape, rfl, -⟩ | ⟨hescape, -, -, hplain, -⟩
  · rw [hescape]
    rfl
  · rw [hescape, List.cons_append, List.nil_append, decode]
    · exact fun h => absurd h hplain
    · exact fun _ _ h => absurd h hplain

theorem decode_flatMap (cs : Text) : decode (cs.flatMap escape) = cs := by
  induction cs with
  | nil => rfl
  | cons c cs ih => rw [List.flatMap_cons, decode_escape, ih]

theorem unquote_quoted (quote : Char) (inside : Text) : unquote (quote :: inside ++ [quote]) = decode inside := by
  rw [unquote, List.cons_append, body, List.getLast?_concat, if_pos rfl, List.dropLast_concat]

end Literal

namespace Token

open Literal (escape escape_cases)

variable {t : Token} {text rest cs ds body : Text} {c : Char}

/-! Tokens that are read again from their text -/

/-- The identifiers of the language. -/
def isName (name : String) : Bool :=
  match name.toList with
  | c :: cs => startsName c && cs.all continuesName && (Keyword.ofText? name).isNone
  | [] => false

def isTypeVariable (name : String) : Bool :=
  match name.toList with
  | '\'' :: c :: cs => startsName c && cs.all continuesTypeVar
  | _ => false

inductive Legible : Token → Prop
  | int {ds : Text} : Digits ds → Legible (int (String.ofList ds))
  | string {body : Text} : Body body → Legible (string (String.ofList ('"' :: body ++ ['"'])))
  | char {c : Char} : c ≠ '\\' → c ≠ '\'' → c ≠ '\n' → Legible (char (String.ofList ['\'', c, '\'']))
  | escapedChar {c : Char} : c ≠ '\n' → Legible (char (String.ofList ['\'', '\\', c, '\'']))
  | typeVar {name : String} : isTypeVariable name = true → Legible (typeVar name)
  | ident {name : String} : isName name = true → Legible (ident name)
  | keyword (k : Keyword) : Legible (keyword k)
  | operator (o : Operator) : Legible (operator o)
  | punct (p : Punct) : Legible (punct p)

theorem isName_spelled {name : String} (h : isName name = true) : ∃ c cs, name.toList = c :: cs ∧
    startsName c = true ∧ (∀ d ∈ cs, continuesName d = true) ∧ Keyword.ofText? name = none := by
  unfold isName at h
  split at h
  case h_1 c cs hname =>
    simp only [Bool.and_eq_true, List.all_eq_true, Option.isNone_iff_eq_none] at h
    exact ⟨c, cs, hname, h.1.1, h.1.2, h.2⟩
  case h_2 => cases h

theorem isTypeVariable_spelled {name : String} (h : isTypeVariable name = true) : ∃ c cs,
    name.toList = '\'' :: c :: cs ∧ startsName c = true ∧ ∀ d ∈ cs, continuesTypeVar d = true := by
  unfold isTypeVariable at h
  split at h
  case h_1 c cs hname =>
    simp only [Bool.and_eq_true, List.all_eq_true] at h
    exact ⟨c, cs, hname, h.1, h.2⟩
  case h_2 => cases h

/-- A string literal of the value. -/
def ofString (value : String) : Token := string (String.ofList ('"' :: value.toList.flatMap escape ++ ['"']))

/-- A character literal of the value. -/
def ofChar (value : Char) : Token := char (String.ofList ('\'' :: escape value ++ ['\'']))

/-- The decimal literal of the value. -/
def ofNat (value : Nat) : Token := int (String.ofList (Nat.toDigits 10 value))

theorem body_flatMap (cs : Text) : Body (cs.flatMap escape) := by
  induction cs with
  | nil => exact .nil
  | cons c cs ih =>
    rw [List.flatMap_cons]
    rcases escape_cases c with ⟨d, hescape, -, hline⟩ | ⟨hescape, hstring, -, hplain, hline⟩
    · rw [hescape]
      exact .escape hline ih
    · rw [hescape]
      exact .plain hstring hplain hline ih

theorem legible_ofString (value : String) : Legible (ofString value) := .string (body_flatMap _)

theorem legible_ofChar (value : Char) : Legible (ofChar value) := by
  unfold ofChar
  rcases escape_cases value with ⟨d, hescape, -, hline⟩ | ⟨hescape, -, hquote, hplain, hline⟩
  · rw [hescape]
    exact .escapedChar hline
  · rw [hescape]
    exact .char hplain hquote hline

theorem legible_ofNat (value : Nat) : Legible (ofNat value) := by
  refine .int ⟨fun c hc => ?_, ?_⟩
  · have hdigit := Nat.isDigit_of_mem_toDigits (by decide) (by decide) hc
    simpa [Char.isDigit, isDigit, Char.le_def, UInt32.le_iff_toNat_le] using hdigit
  · have hlength := Nat.length_toDigits_pos (b := 10) (n := value)
    omega

/-! Where a token ends -/

/-- Brackets and dots that nothing needs to be kept apart from. -/
def opens : Token → Bool
  | punct .lparen | punct .lbracket | punct .lbrace | punct .dot => true
  | _ => false

/-- What does not continue a token in front of it. -/
structure Breaks (rest : Text) : Prop where
  name : Clear continuesName rest
  symbol : Clear (['>', '|', '&', '=', '/'].contains ·) rest
  point : fractionLength rest = 0

theorem breaks_nil : Breaks [] := ⟨nofun, nofun, rfl⟩

theorem breaks_cons (hname : continuesName c = false) (hsymbol : ['>', '|', '&', '=', '/'].contains c = false)
    (hpoint : c ≠ '.') (rest : Text) : Breaks (c :: rest) :=
  ⟨clear_cons.mpr hname, clear_cons.mpr hsymbol, fractionLength_clear (clear_cons.mpr (by simpa using hpoint))⟩

theorem breaks_dot (h : Clear isDigit rest) : Breaks ('.' :: rest) := by
  refine ⟨clear_cons.mpr rfl, clear_cons.mpr (by decide), ?_⟩
  rw [fractionLength, takeWhile_clear h]
  rfl

theorem not_digit_of_continues {c : Char} (h : continuesName c = false) : isDigit c = false := by
  simp only [continuesName, continuesTypeVar, Bool.or_eq_false_iff] at h
  exact h.1.2

theorem exponentLength_breaks (h : Clear continuesName rest) : exponentLength rest = 0 := by
  unfold exponentLength
  split
  case h_1 e _ _ =>
    have he : ¬(e == 'e' || e == 'E') = true := by
      intro he
      have hname := clear_cons.mp h
      rcases Bool.or_eq_true_iff.mp he with he | he
      all_goals
        rw [eq_of_beq he] at hname
        exact absurd hname (by decide)
    exact if_neg he
  case h_2 => rfl

theorem lexeme_int (hds : Digits ds) (hrest : Breaks rest) :
    ∃ c cs, ds = c :: cs ∧ isBlank c = false ∧ lexeme c (cs ++ rest) = (int (String.ofList ds), ds.length) := by
  obtain ⟨c, cs, rfl⟩ := List.exists_cons_of_ne_nil hds.ne_nil
  have hdigit := hds.all c List.mem_cons_self
  have hclear : Clear isDigit rest := fun d hd => not_digit_of_continues (hrest.name d hd)
  have hnumber : number (c :: cs ++ ([] ++ ([] ++ rest))) = (numeral (c :: cs) [] [], (c :: cs ++ [] ++ []).length) :=
    number_of_parts (takeWhile_append_clear hds.all hclear) hrest.point (exponentLength_breaks hrest.name)
  refine ⟨c, cs, rfl, ?_, ?_⟩
  · simp only [isDigit, Bool.and_eq_true, decide_eq_true_eq, Char.le_def, UInt32.le_iff_toNat_le] at hdigit
    simp only [isBlank, Bool.or_eq_false_iff, beq_eq_false_iff_ne]
    refine ⟨⟨⟨⟨?_, ?_⟩, ?_⟩, ?_⟩, ?_⟩
    all_goals
      rintro rfl
      exact absurd hdigit (by decide)
  · rw [lexeme_number hdigit, ← List.cons_append]
    simpa [numeral_int] using hnumber

theorem not_blank_of_starts {c : Char} (h : startsName c = true) : isBlank c = false := by
  refine Bool.eq_false_iff.mpr fun hblank => ?_
  simp only [isBlank, Bool.or_eq_true, beq_iff_eq] at hblank
  rcases hblank with (((rfl | rfl) | rfl) | rfl) | rfl
  all_goals exact absurd h (by decide)

theorem lexeme_start (hstart : startsName c = true) (hcs : ∀ d ∈ cs, continuesName d = true) (hrest : Breaks rest) :
    lexeme c (cs ++ rest) = name (c :: cs ++ rest) ∧ (c :: cs ++ rest).takeWhile continuesName = c :: cs := by
  have hall : ∀ d ∈ c :: cs, continuesName d = true := List.forall_mem_cons.mpr ⟨continues_of_starts hstart, hcs⟩
  exact ⟨lexeme_name (not_digit_of_name hstart) hstart _, takeWhile_append_clear hall hrest.name⟩

theorem lexeme_ident (hstart : startsName c = true) (hcs : ∀ d ∈ cs, continuesName d = true)
    (hplain : Keyword.ofText? (String.ofList (c :: cs)) = none) (hrest : Breaks rest) :
    lexeme c (cs ++ rest) = (ident (String.ofList (c :: cs)), (c :: cs).length) := by
  obtain ⟨hlexeme, htake⟩ := lexeme_start hstart hcs hrest
  rw [hlexeme]
  simp only [name, htake, hplain]

theorem lexeme_keyword {k : Keyword} (hstart : startsName c = true) (hcs : ∀ d ∈ cs, continuesName d = true)
    (hk : k.text.toList = c :: cs) (hrest : Breaks rest) :
    lexeme c (cs ++ rest) = (keyword k, (c :: cs).length) := by
  have htext : String.ofList (c :: cs) = k.text := by rw [← hk, String.ofList_toList]
  obtain ⟨hlexeme, htake⟩ := lexeme_start hstart hcs hrest
  rw [hlexeme]
  simp only [name, htake, htext, ofText?_text]

theorem lexeme_closedString (h : Body body) (rest : Text) : lexeme '"' (body ++ ['"'] ++ rest) =
    (string (String.ofList ('"' :: body ++ ['"'])), ('"' :: body ++ ['"']).length) := by
  have hlength : stringLength (body ++ '"' :: rest) = (body.length + 1, true) := h.stringLength_append _
  have htake : (body ++ '"' :: rest).take (body.length + 1) = body ++ ['"'] := by
    rw [List.append_cons, List.take_left' (by simp)]
  rw [List.append_assoc, List.singleton_append, lexeme_string, hlength, htake]
  simp [Nat.add_comm]

theorem lexeme_typeVar (hstart : startsName c = true) (hcs : ∀ d ∈ cs, continuesTypeVar d = true)
    (hrest : Clear continuesName rest) :
    lexeme '\'' (c :: cs ++ rest) = (typeVar (String.ofList ('\'' :: c :: cs)), ('\'' :: c :: cs).length) := by
  have hclear : Clear continuesTypeVar rest := fun d hd => (Bool.or_eq_false_iff.mp (hrest d hd)).1
  have hnext : ∀ ds, cs ++ rest ≠ '\'' :: ds := by
    intro ds h
    cases cs with
    | nil =>
      rw [List.nil_append] at h
      subst h
      exact absurd (clear_cons.mp hrest) (by decide)
    | cons d cs =>
      have hd := hcs d List.mem_cons_self
      rw [(List.cons.inj h).1] at hd
      exact absurd hd (by decide)
  rw [lexeme_quoted, List.cons_append, quoted_typeVar hstart hnext, takeWhile_append_clear hcs hclear,
    List.length_cons, List.length_cons, Nat.add_comm 2]

theorem symbol?_apart (hrest : Clear (['>', '|', '&', '=', '/'].contains ·) rest) : symbol? (c :: rest) = symbol? [c] := by
  rcases symbol?_cases c rest with ⟨d, ds, t, rfl, -, hsymbol⟩ | ⟨hsymbol, -⟩
  · have hd : d ∉ ['>', '|', '&', '=', '/'] := by simpa using clear_cons.mp hrest
    have htwo := hsymbol []
    unfold symbol? at htwo
    split at htwo
    case h_1 h | h_2 h | h_3 h | h_4 h | h_5 h | h_6 h | h_7 h =>
      cases h
      exact absurd hd (by decide)
    all_goals cases htwo
  · exact hsymbol

theorem lexeme_operator (o : Operator) (hrest : Clear (['>', '|', '&', '=', '/'].contains ·) rest) :
    ∃ c cs, o.text.toList = c :: cs ∧ isBlank c = false ∧ lexeme c (cs ++ rest) = (operator o, o.text.toList.length) := by
  have hline : ∀ ds, rest ≠ '/' :: ds := by
    rintro ds rfl
    exact absurd (clear_cons.mp hrest) (by decide)
  cases o
  case arrow | pipeRight | orOr | andAnd | notEq | ltEq | gtEq => exact ⟨_, _, rfl, rfl, rfl⟩
  all_goals
    refine ⟨_, _, rfl, rfl, ?_⟩
    refine (lexeme_symbol (by constructor <;> decide) ⟨fun _ => hline, fun h => absurd h (by decide)⟩).trans ?_
    exact (congrArg (Option.getD · (error, 1)) (symbol?_apart hrest)).trans rfl

theorem lexeme_punct (p : Punct) (hblock : p = .lparen → Clear (· == '*') rest) :
    ∃ c cs, p.text.toList = c :: cs ∧ isBlank c = false ∧ lexeme c (cs ++ rest) = (punct p, p.text.toList.length) := by
  have hplain : p = .lparen → ∀ ds, rest ≠ '*' :: ds := by
    rintro hp ds rfl
    exact absurd (clear_cons.mp (hblock hp)) (by decide)
  cases p
  all_goals
    refine ⟨_, _, rfl, rfl, (lexeme_symbol (by constructor <;> decide) ⟨fun h => ?_, fun h => ?_⟩).trans rfl⟩
    · exact absurd h (by decide)
    · first | exact hplain rfl | exact absurd h (by decide)

/-- What stands behind a token does not change how it is read. -/
structure Parts (t : Token) (rest : Text) : Prop where
  comment : t = punct .lparen → Clear (· == '*') rest
  breaks : opens t = false → Breaks rest

theorem Breaks.parts (h : Breaks rest) (hstar : Clear (· == '*') rest) (t : Token) : Parts t rest :=
  ⟨fun _ => hstar, fun _ => h⟩

theorem Legible.lexeme_text (h : Legible t) (hrest : Parts t rest) : ∃ c cs, t.text.toList = c :: cs ∧
    isBlank c = false ∧ lexeme c (cs ++ rest) = (t, t.text.toList.length) := by
  cases h with
  | int hds =>
    obtain ⟨c, cs, rfl, hblank, hlexeme⟩ := lexeme_int hds (hrest.breaks rfl)
    exact ⟨c, cs, String.toList_ofList, hblank, by rw [hlexeme, Token.text, String.toList_ofList]⟩
  | string hbody =>
    refine ⟨'"', _, String.toList_ofList, rfl, (lexeme_closedString hbody rest).trans ?_⟩
    rw [Token.text, String.toList_ofList]
  | char hplain hquote hline =>
    refine ⟨'\'', _, String.toList_ofList, rfl, ?_⟩
    rw [Token.text, String.toList_ofList]
    exact quoted_plain hplain hquote hline rest
  | escapedChar hline =>
    refine ⟨'\'', _, String.toList_ofList, rfl, ?_⟩
    rw [Token.text, String.toList_ofList]
    exact quoted_escape hline rest
  | @typeVar name hname =>
    obtain ⟨c, cs, hspelled, hstart, hcs⟩ := isTypeVariable_spelled hname
    refine ⟨'\'', c :: cs, hspelled, rfl, ?_⟩
    rw [lexeme_typeVar hstart hcs (hrest.breaks rfl).name, Token.text, hspelled, ← hspelled, String.ofList_toList]
  | @ident name hname =>
    obtain ⟨c, cs, hspelled, hstart, hcs, hplain⟩ := isName_spelled hname
    refine ⟨c, cs, hspelled, not_blank_of_starts hstart, ?_⟩
    rw [← String.ofList_toList (s := name), hspelled] at hplain
    rw [lexeme_ident hstart hcs hplain (hrest.breaks rfl), Token.text, hspelled, ← hspelled, String.ofList_toList]
  | keyword k =>
    obtain ⟨c, cs, hspelled, hstart, hcs⟩ := keyword_spelled k
    refine ⟨c, cs, hspelled, not_blank_of_starts hstart, ?_⟩
    rw [lexeme_keyword hstart hcs hspelled (hrest.breaks rfl), Token.text, hspelled]
  | operator o => exact lexeme_operator o (hrest.breaks rfl).symbol
  | punct p => exact lexeme_punct p fun hp => hrest.comment (congrArg _ hp)

theorem Legible.admits (h : Legible t) : Admits t t.text.toList := by
  cases h with
  | int hds => simpa [Token.text] using Admits.int hds
  | string hbody => simpa [Token.text] using Admits.string hbody
  | char hplain hquote hline => simpa [Token.text] using Admits.char hplain hquote hline
  | escapedChar hline => simpa [Token.text] using Admits.escapedChar hline
  | @typeVar name hname =>
    obtain ⟨c, cs, hspelled, hstart, hcs⟩ := isTypeVariable_spelled hname
    have hadmits := Admits.typeVar hstart hcs
    rwa [← hspelled, String.ofList_toList] at hadmits
  | @ident name hname =>
    obtain ⟨c, cs, hspelled, hstart, hcs, -⟩ := isName_spelled hname
    have hadmits := Admits.ident hstart hcs
    rwa [← hspelled, String.ofList_toList] at hadmits
  | keyword k => exact .keyword k
  | operator o => exact .operator o
  | punct p => exact .punct p

theorem Legible.not_star (h : t.Legible) (hstar : t ≠ Token.operator .star) (rest : Text) :
    Clear (· == '*') (t.text.toList ++ rest) := by
  obtain ⟨c, cs, htext, -, hlexeme⟩ := h.lexeme_text (breaks_nil.parts nofun t)
  rw [htext]
  refine clear_cons.mpr (beq_eq_false_iff_ne.mpr fun hc => hstar ?_)
  subst hc
  exact (congrArg Prod.fst hlexeme).symm

end Token

/-! Tokens in a line -/

/-- A token to be written; the parenthesis of a call stands right behind its callee, and the bracket of an
array type may stand right behind the element type. -/
inductive Piece where
  | word (token : Token)
  | callParen
  | elementBracket

namespace Piece

open Token

variable {p : Piece} {ps : List Piece} {t before : Token} {rest text : Text}

def token : Piece → Token
  | word t => t
  | callParen => .punct .lparen
  | elementBracket => .punct .lbracket

/-- Tokens that stand right behind any other. -/
def follows : Token → Bool
  | .punct .rparen | .punct .rbracket | .punct .rbrace | .punct .comma | .punct .semicolon | .punct .dot => true
  | _ => false

/-- Whether `t` stands right behind `before`, an opening bracket or a dot. -/
def adjoins : (before t : Token) → Bool
  | .punct .lparen, .operator .star => false
  | .punct .lparen, _ | .punct .lbracket, _ | .punct .lbrace, _ => true
  | .punct .dot, .ident _ => true
  | _, _ => false

/-- Whether a blank separates the piece from the token in front. -/
def spaced (before : Token) : Piece → Bool
  | word t => !follows t && !adjoins before t
  | callParen | elementBracket => false

/-- The pieces behind a token. -/
def written (before : Token) : List Piece → Text
  | [] => []
  | p :: ps => (if p.spaced before then [' '] else []) ++ (p.token.text.toList ++ written p.token ps)

/-- The pieces from the start of a line. -/
def line : List Piece → Text
  | [] => []
  | p :: ps => p.token.text.toList ++ written p.token ps

def Legible (ps : List Piece) : Prop := ∀ p ∈ ps, p.token.Legible

theorem follows_text (h : follows t = true) : t = .punct .dot ∨ ∃ c, t.text.toList = [c] ∧
    continuesName c = false ∧ ['>', '|', '&', '=', '/', '.', '*'].contains c = false := by
  unfold follows at h
  split at h
  case h_6 => exact .inl rfl
  case h_7 => cases h
  all_goals exact .inr ⟨_, rfl, by decide, by decide⟩

theorem adjoins_opens (h : adjoins before t = true) : opens before = true := by
  unfold adjoins at h
  split at h
  case h_1 | h_6 => cases h
  all_goals rfl

theorem not_star_of_adjoins (h : adjoins (.punct .lparen) t = true) : t ≠ Token.operator .star := by
  rintro rfl
  cases h

theorem ident_of_adjoins (h : adjoins (.punct .dot) t = true) : ∃ name, t = .ident name := by
  unfold adjoins at h
  split at h
  case h_5 name _ => exact ⟨name, rfl⟩
  all_goals contradiction

/-- What stands behind a token: a blank, or a piece that needs none. -/
theorem written_cases (before : Token) (p : Piece) (ps : List Piece) :
    (∃ rest, written before (p :: ps) = ' ' :: rest) ∨
      written before (p :: ps) = p.token.text.toList ++ written p.token ps ∧
        (p.token = .punct .lparen ∨ p.token = .punct .lbracket ∨ follows p.token = true ∨
          adjoins before p.token = true) := by
  rw [written]
  split
  case isTrue => exact .inl ⟨_, rfl⟩
  case isFalse hspaced =>
    refine .inr ⟨rfl, ?_⟩
    cases p with
    | callParen => exact .inl rfl
    | elementBracket => exact .inr (.inl rfl)
    | word t =>
      refine .inr (.inr ?_)
      simp only [spaced, Bool.and_eq_true, Bool.not_eq_true', not_and, Bool.not_eq_false] at hspaced
      cases h : follows t with
      | true => exact .inl h
      | false => exact .inr (hspaced h)

theorem clear_digit_written (hps : Legible ps) : Clear isDigit (written (.punct .dot) ps) := by
  cases ps with
  | nil => exact nofun
  | cons p ps =>
    obtain ⟨hp, -⟩ := List.forall_mem_cons.mp hps
    rcases written_cases (.punct .dot) p ps with ⟨rest, h⟩ | ⟨h, hopen | hopen | hfollows | hadjoins⟩
    · rw [h]
      exact clear_cons.mpr rfl
    · rw [h, hopen]
      exact clear_cons.mpr rfl
    · rw [h, hopen]
      exact clear_cons.mpr rfl
    · rw [h]
      rcases follows_text hfollows with hdot | ⟨c, hc, hname, -⟩
      · rw [hdot]
        exact clear_cons.mpr rfl
      · rw [hc]
        exact clear_cons.mpr (not_digit_of_continues hname)
    · obtain ⟨name, hname⟩ := ident_of_adjoins hadjoins
      rw [hname] at hp h
      cases hp with
      | ident hspelling =>
        obtain ⟨c, cs, hspelled, hstart, -⟩ := isName_spelled hspelling
        rw [h, Token.text, hspelled]
        exact clear_cons.mpr (Bool.eq_false_iff.mpr (not_digit_of_name hstart))

theorem parts_written (t : Token) (hps : Legible ps) : Parts t (written t ps) := by
  cases ps with
  | nil => exact breaks_nil.parts nofun t
  | cons p ps =>
    obtain ⟨hp, hps⟩ := List.forall_mem_cons.mp hps
    rcases written_cases t p ps with ⟨rest, h⟩ | ⟨h, hopen | hopen | hfollows | hadjoins⟩
    · rw [h]
      exact (breaks_cons rfl (by decide) (by decide) _).parts (clear_cons.mpr rfl) t
    · rw [h, hopen]
      exact (breaks_cons rfl (by decide) (by decide) _).parts (clear_cons.mpr rfl) t
    · rw [h, hopen]
      exact (breaks_cons rfl (by decide) (by decide) _).parts (clear_cons.mpr rfl) t
    · rw [h]
      rcases follows_text hfollows with hdot | ⟨c, hc, hname, hsymbol⟩
      · rw [hdot]
        exact (breaks_dot (clear_digit_written hps)).parts (clear_cons.mpr rfl) t
      · have hplain : (c ≠ '.' ∧ c ≠ '*') ∧ ['>', '|', '&', '=', '/'].contains c = false := by simp_all
        rw [hc]
        exact (breaks_cons hname hplain.2 hplain.1.1 _).parts (clear_cons.mpr (by simpa using hplain.1.2)) t
    · rw [h]
      refine ⟨fun ht => ?_, fun ht => ?_⟩
      · subst ht
        exact hp.not_star (not_star_of_adjoins hadjoins) _
      · rw [adjoins_opens hadjoins] at ht
        cases ht

/-- The tokens of the pieces behind `before`, which ends at `offset`. -/
def tokens (offset : Nat) (before : Token) : List Piece → List (Token × Span)
  | [] => []
  | p :: ps =>
    let start := if p.spaced before then offset + 1 else offset
    let stop := start + Text.byteSize p.token.text.toList
    (p.token, ⟨start, stop⟩) :: tokens stop p.token ps

theorem tokensFrom_token (h : t.Legible) (hrest : Parts t rest) (offset : Nat) :
    tokensFrom offset (t.text.toList ++ rest) = (t, ⟨offset, offset + Text.byteSize t.text.toList⟩) ::
      tokensFrom (offset + Text.byteSize t.text.toList) rest := by
  obtain ⟨c, cs, htext, hblank, hlexeme⟩ := h.lexeme_text hrest
  rw [htext] at hlexeme ⊢
  have htake : (c :: (cs ++ rest)).take (c :: cs).length = c :: cs := List.take_left' rfl
  have hdrop : (cs ++ rest).drop ((c :: cs).length - 1) = rest := List.drop_left' rfl
  rw [List.cons_append, tokensFrom, hblank, if_neg Bool.false_ne_true, hlexeme]
  dsimp only
  rw [htake, hdrop]

theorem tokensFrom_written (hps : Legible ps) (offset : Nat) (before : Token) :
    tokensFrom offset (written before ps) = tokens offset before ps := by
  induction ps generalizing offset before with
  | nil => rw [written, tokensFrom, tokens]
  | cons p ps ih =>
    obtain ⟨hp, hps⟩ := List.forall_mem_cons.mp hps
    have hword : ∀ offset, tokensFrom offset (p.token.text.toList ++ written p.token ps) =
        (p.token, ⟨offset, offset + Text.byteSize p.token.text.toList⟩) ::
          tokens (offset + Text.byteSize p.token.text.toList) p.token ps := fun offset => by
      rw [tokensFrom_token hp (parts_written _ hps), ih hps]
    rw [written, tokens]
    split
    case isTrue =>
      have hblank : isBlank ' ' = true := rfl
      rw [List.singleton_append, tokensFrom, if_pos hblank, hword]
      rfl
    case isFalse => rw [List.nil_append, hword]

theorem newline_not_mem (hps : Legible ps) (before : Token) : '\n' ∉ written before ps := by
  induction ps generalizing before with
  | nil => exact List.not_mem_nil
  | cons p ps ih =>
    obtain ⟨hp, hps⟩ := List.forall_mem_cons.mp hps
    have hone : '\n' ∉ p.token.text.toList := hp.admits.oneLine
    rw [written]
    split
    all_goals simp [hone, ih hps]

/-- The tokens of the pieces behind `before`, which ends at `place`, with their layout. -/
inductive Laid : (before : Token) → (place : Nat) → List Piece → List LaidToken → Prop
  | nil {before : Token} {place : Nat} : Laid before place [] []
  | cons {before : Token} {place : Nat} {p : Piece} {ps : List Piece} {u : LaidToken} {us : List LaidToken} :
      u.token = p.token → u.lineStart = false →
      u.span.start = (if p.spaced before then place + 1 else place) → u.span.start ≤ u.span.stop →
      Laid p.token u.span.stop ps us → Laid before place (p :: ps) (u :: us)

theorem positionFrom_line (h : '\n' ∉ text) (p : Position) (offset : Nat) :
    (Text.positionFrom p offset text).line = p.line := by
  induction text generalizing p offset with
  | nil => rfl
  | cons c cs ih =>
    obtain ⟨hc, hcs⟩ := not_or.mp (mt List.mem_cons.mpr h)
    rw [Text.positionFrom]
    split
    · rw [ih hcs, Position.next, if_neg (Ne.symm hc)]
    · rfl

theorem laid_place (h : '\n' ∉ text) (offset : Nat) (before : Token) (ps : List Piece) :
    Laid before offset ps (Layout.place text (some 0) (tokens offset before ps)) := by
  induction ps generalizing offset before with
  | nil => exact .nil
  | cons p ps ih =>
    have hline : (text.positionOf (if p.spaced before then offset + 1 else offset)).line = 0 := positionFrom_line h _ _
    refine .cons rfl ?_ rfl (Nat.le_add_right _ _) ?_
    · dsimp only
      rw [hline]
      rfl
    · rw [hline]
      exact ih _ _

/-- Every token is kept, and none is an error. -/
theorem activeTokens_cons (h : t.Legible) (text : Text) (defines : List String) (span : Span)
    (rest : List (Token × Span)) (hrest : Layout.activeTokens text defines [] rest = (rest, [])) :
    Layout.activeTokens text defines [] ((t, span) :: rest) = ((t, span) :: rest, []) := by
  have hplain : t.isComment = false ∧ Layout.Conditional.ofToken? t = none := by
    cases h <;> exact ⟨rfl, rfl⟩
  rw [Layout.activeTokens, hplain.1, if_neg Bool.false_ne_true]
  simp only [hplain.2, hrest]
  cases h <;> rfl

theorem activeTokens_tokens (hps : Legible ps) (text : Text) (defines : List String) (offset : Nat) (before : Token) :
    Layout.activeTokens text defines [] (tokens offset before ps) = (tokens offset before ps, []) := by
  induction ps generalizing offset before with
  | nil =>
    rw [tokens, Layout.activeTokens]
    rfl
  | cons p ps ih =>
    obtain ⟨hp, hps⟩ := List.forall_mem_cons.mp hps
    exact activeTokens_cons hp text defines _ _ (ih hps _ _)

/-- The tokens of a line are the pieces that were written; all but the first stand inside the line. -/
theorem significantTokens_line (hps : Legible (p :: ps)) (defines : List String) :
    ∃ u us, significantTokens (line (p :: ps)) defines = (u :: us, []) ∧ u.token = p.token ∧ u.lineStart = true ∧
      Laid p.token u.span.stop ps us := by
  obtain ⟨hp, hps⟩ := List.forall_mem_cons.mp hps
  have hone : '\n' ∉ line (p :: ps) := oneLine_append.mpr ⟨hp.admits.oneLine, newline_not_mem hps _⟩
  have hzero : ((line (p :: ps)).positionOf 0).line = 0 := positionFrom_line hone _ _
  have htokens : Token.tokens (line (p :: ps)) = _ := tokensFrom_token hp (parts_written _ hps) 0
  rw [tokensFrom_written hps] at htokens
  rw [significantTokens, htokens, activeTokens_cons hp _ _ _ _ (activeTokens_tokens hps _ _ _ _)]
  refine ⟨_, _, rfl, rfl, rfl, ?_⟩
  rw [hzero]
  exact laid_place hone _ _ _

end Piece
end ScriptAnalyzer
